import SXP.BlockChain.SideBySide

/-!
# Private keys on the network

Two executions of an establisher with the same public keys, the same contract and the same inputs,
but with other private keys.  Who is meant by a message, and who sends it, is said by the text of a
key, and the private key is part of it.

`private_iff` says for which private keys nothing of that can be seen in what is sent: for those
that are the same, as long as there is something to send and somebody to send it to.
-/

namespace SXP.BlockChain

open SXP.Lib SXP.Lib.Java SXP.Lib.Text SXP.Lib.Hex

/-! ### Other private keys -/

def EthereumKey.under (π : ℤ → ℤ) (k : EthereumKey) : EthereumKey where
  ref := k.ref
  privateKey := some (π k.publicKey)
  publicKey := k.publicKey
  address := k.address
  credentials := ⟨π k.publicKey, k.publicKey, k.address⟩

def BlockChainContract.under (π : ℤ → ℤ) (c : BlockChainContract) : BlockChainContract :=
  { c with
    parties := c.parties.map (·.under π)
    signatures := c.signatures.map fun e => (e.1.under π, e.2) }

def Establisher.Input.under (π : ℤ → ℤ) : Establisher.Input → Establisher.Input
  | .addSignature k s => .addSignature (k.map (·.under π)) s
  | .signContract k answer => .signContract (k.under π) answer
  | .checkContrat c => .checkContrat (c.map (·.under π))
  | .sign c answer => .sign (c.map (·.under π)) answer
  | .start => .start
  | .sendContractAddr => .sendContractAddr
  | .sendSolidityHash => .sendSolidityHash
  | .shareSign => .shareSign
  | .notify m => .notify m

namespace EthereumKey

def text (π : ℤ → ℤ) (k : EthereumKey) : String :=
  "Private key : \n" ++ toHexStringWithPrefix (π k.publicKey) ++ "\n\n" ++
    "Private public : \n" ++ toHexStringWithPrefix k.publicKey

@[simp] theorem toString_under (π : ℤ → ℤ) (k : EthereumKey) :
    (k.under π).toString = .ok (k.text π) := by
  unfold toString text
  exact rfl

/-- **The text of a key tells the private key.** -/
theorem text_inj {π₁ π₂ : ℤ → ℤ} {k : EthereumKey} :
    k.text π₁ = k.text π₂ ↔ π₁ k.publicKey = π₂ k.publicKey := by
  constructor
  · intro h
    unfold text toHexStringWithPrefix at h
    rw [String.append_left_inj, String.append_left_inj, String.append_left_inj,
      String.append_right_inj, String.append_right_inj] at h
    exact hexadecimal_injective h
  · intro h
    unfold text
    rw [h]

theorem under_congr {π₁ π₂ : ℤ → ℤ} {k : EthereumKey} (h : π₁ k.publicKey = π₂ k.publicKey) :
    k.under π₁ = k.under π₂ := by
  rw [under, h, under]

def sameAccount (k account : EthereumKey) : Bool :=
  k.address == account.address && k.publicKey == account.publicKey

theorem equals_under (π : ℤ → ℤ) (k account : EthereumKey) :
    (k.under π).equals (account.under π) = k.sameAccount account := by
  rw [Bool.eq_iff_iff]
  simp only [equals, sameAccount, under, Bool.and_eq_true, beq_iff_eq, Credentials.mk.injEq]
  constructor
  · rintro ⟨haddress, -, hpublic, -⟩
    exact ⟨haddress, hpublic⟩
  · rintro ⟨haddress, hpublic⟩
    exact ⟨haddress, by rw [hpublic], hpublic, haddress⟩

end EthereumKey

/-! ### Inputs with other private keys -/

open Act (Alike Sides)

namespace BlockChainContract

variable {P : Platform}

/-- With every private key there is a digest, if there are clauses and a date. -/
theorem comparable_under (c : BlockChainContract) (π₁ π₂ : ℤ → ℤ) :
    Comparable P (c.under π₁) (c.under π₂) := by
  have hdigest : ∀ π, (c.under π).getHashableData P = do
      let clauses ← nonNull c.clauses
      let date ← nonNull c.date
      return P.hash (getBytes (listText (c.parties.map (·.text π)) ++ listText clauses ++
        Date.toString P.zone date)) := by
    intro π
    have hparties : collect EthereumKey.toString (c.under π).parties
        = .ok (c.parties.map (·.text π)) := by
      rw [collect_eq_ok, BlockChainContract.under, List.forall₂_map_left_iff,
        List.forall₂_map_right_iff]
      exact List.forall₂_same.mpr fun k _ => k.toString_under π
    unfold getHashableData
    rw [hparties, ok_bind]
    rfl
  refine ⟨rfl, ?_⟩
  rw [hdigest, hdigest]
  cases c.clauses with
  | none => exact .error _ _
  | some clauses =>
    cases c.date with
    | none => exact .error _ _
    | some date => exact .ok trivial

end BlockChainContract

namespace Establisher

variable {P : Platform} {e e' : Establisher}

/-- **Inputs with other private keys** do the same to both. -/
theorem Same.act (h : Same e e') (π₁ π₂ : ℤ → ℤ) (i : Input) :
    Sides Same Eq (Establisher.act P (i.under π₁)) (Establisher.act P (i.under π₂)) e e' := by
  have hcomparable : ∀ c : Option BlockChainContract, Option.Rel
      (BlockChainContract.Comparable P) (c.map (·.under π₁)) (c.map (·.under π₂)) := by
    intro c
    cases c with
    | none => exact .none
    | some c => exact .some (c.comparable_under π₁ π₂)
  cases i with
  | addSignature k s => exact h.addSignature (by cases k <;> rfl) s
  | signContract k answer =>
    have hk : (k.under π₁).ref = (k.under π₂).ref := rfl
    refine Act.sides_get ?_
    rw [h.contract.signer]
    refine Act.sides_bind (h.onContract (h.contract.sign _ hk answer)) fun _ _ s t _ hst => ?_
    exact Act.sides_pure rfl hst
  | checkContrat c => exact h.checkContrat (hcomparable c)
  | sign c answer => exact h.sign (hcomparable c) answer
  | start => exact h.start
  | sendContractAddr => exact h.sendContractAddr
  | sendSolidityHash => exact h.sendSolidityHash
  | shareSign => exact h.shareSign
  | notify m => exact h.notify m

end Establisher

/-! ### Nothing to send -/

namespace BlockChainContract

variable {P : Platform}

def Stores (c c' : BlockChainContract) : Prop :=
  c'.parties = c.parties ∧ ∀ k, (c'.signature k).isSome = true →
    (c.signature k).isSome = true ∨ c.contains k = true

theorem Stores.refl (c : BlockChainContract) : Stores c c := ⟨rfl, fun _ h => Or.inl h⟩

theorem Stores.trans (c c' c'' : BlockChainContract) (h : Stores c c') (h' : Stores c' c'') :
    Stores c c'' := by
  refine ⟨h'.1.trans h.1, fun k hk => ?_⟩
  rcases h'.2 k hk with hk | hk
  · exact h.2 k hk
  · rw [contains, h.1] at hk
    exact Or.inr hk

theorem Stores.put {c : BlockChainContract} {k : EthereumKey} (hk : c.contains k = true)
    (s : EthereumSignature) : Stores c (c.put k s) := by
  refine ⟨rfl, fun k' hk' => ?_⟩
  rw [signature_put] at hk'
  split at hk'
  · next href =>
    rw [contains, href] at hk
    exact Or.inr hk
  · exact Or.inl hk'

theorem addSignature_stores (k : Option EthereumKey) (s : EthereumSignature)
    (c : BlockChainContract) : Stores c (Act.exec (addSignature k s) c).2 := by
  cases k with
  | none => exact Stores.refl c
  | some k =>
    rw [addSignature, Act.exec_get_bind]
    split
    · exact Stores.refl c
    · next hk =>
      have hput : Stores c (c.put k s) := Stores.put (by simpa using hk) s
      rw [Act.exec_modify_bind]
      split
      · exact hput
      · rw [Act.exec_get_bind]
        refine Act.after_lift hput fun finalized _ => ?_
        cases finalized with
        | false => exact hput
        | true => exact hput

theorem addSignature_signature {c : BlockChainContract} {k : EthereumKey}
    (hk : c.contains k = true) (s : EthereumSignature) :
    ((Act.exec (addSignature (some k) s) c).2.signature k).isSome = true := by
  have hput : ((c.put k s).signature k).isSome = true := by
    rw [signature_put, if_pos rfl]
    rfl
  rw [addSignature, Act.exec_get_bind, if_neg (by rw [hk]; simp), Act.exec_modify_bind]
  split
  · exact hput
  · rw [Act.exec_get_bind]
    refine Act.after_lift (Q := fun t => (signature t k).isSome = true) hput fun finalized _ => ?_
    cases finalized with
    | false => exact hput
    | true => exact hput

theorem checkContrat_stores (other : Option BlockChainContract) (c : BlockChainContract) :
    Stores c (Act.exec (checkContrat P other) c).2 := by
  rw [checkContrat, Act.exec_get_bind, Act.exec_modify_bind]
  refine Act.after_lift (Stores.refl c) fun accepted _ => ?_
  cases accepted with
  | false => exact Stores.refl c
  | true => exact Stores.refl c

theorem sign_stores (terms : Option Terms) (k : EthereumKey) (answer : Option EthereumSignature)
    (c : BlockChainContract) : Stores c (Act.exec (sign terms k answer) c).2 := by
  rw [sign, Act.exec_modify_bind]
  cases transact terms answer with
  | none => exact Stores.refl c
  | some s =>
    exact Act.keeps_bind Stores.trans (addSignature_stores (some k) s _) fun _ _ => Stores.refl _

end BlockChainContract

namespace Establisher

open BlockChainContract (Stores)

variable {P : Platform}

/-- There is somebody to send to; and something to send, or it may still come. -/
def CanSend (e : Establisher) : Prop :=
  e.othersParties ≠ [] ∧ (Able e ∨ e.contract.contains e.key = true)

structure Mutes (e e' : Establisher) : Prop where
  key : e'.key = e.key
  othersParties : e'.othersParties = e.othersParties
  deployedContractHash : e'.deployedContractHash = e.deployedContractHash
  stores : Stores e.contract e'.contract
  sent : ¬ CanSend e → e'.sent = e.sent

theorem Mutes.canSend {e e' : Establisher} (h : Mutes e e') (he : CanSend e') : CanSend e := by
  obtain ⟨hothers, he⟩ := he
  rw [h.othersParties] at hothers
  refine ⟨hothers, ?_⟩
  rcases he with (hd | hs) | hc
  · rw [isDeployed, h.deployedContractHash] at hd
    exact Or.inl (Or.inl hd)
  · rw [h.key] at hs
    rcases h.stores.2 _ hs with hs | hc
    · exact Or.inl (Or.inr hs)
    · exact Or.inr hc
  · rw [h.key, BlockChainContract.contains, h.stores.1] at hc
    exact Or.inr hc

theorem kept_mutes : Kept P Mutes where
  refl e := ⟨rfl, rfl, rfl, Stores.refl _, fun _ => rfl⟩
  trans e e' e'' h h' := by
    refine ⟨h'.key.trans h.key, h'.othersParties.trans h.othersParties,
      h'.deployedContractHash.trans h.deployedContractHash, h.stores.trans _ _ _ h'.stores, ?_⟩
    intro hmute
    exact (h'.sent fun he => hmute (h.canSend he)).trans (h.sent hmute)
  addSignature e k s :=
    ⟨rfl, rfl, rfl, BlockChainContract.addSignature_stores k s e.contract, fun _ => rfl⟩
  checkContrat e c :=
    ⟨rfl, rfl, rfl, BlockChainContract.checkContrat_stores c e.contract, fun _ => rfl⟩
  sign e terms k answer :=
    ⟨rfl, rfl, rfl, BlockChainContract.sign_stores terms k answer e.contract, fun _ => rfl⟩
  sends e new h := by
    refine ⟨rfl, rfl, rfl, Stores.refl _, fun hmute => ?_⟩
    cases new with
    | nil => exact List.append_nil _
    | cons m new =>
      obtain ⟨hable, -, ⟨k, hk, -⟩, -⟩ := h m List.mem_cons_self
      exact absurd ⟨List.ne_nil_of_mem hk, Or.inl hable⟩ hmute
  address e a := ⟨rfl, rfl, rfl, Stores.refl _, fun _ => rfl⟩
  shared e := ⟨rfl, rfl, rfl, Stores.refl _, fun _ => rfl⟩

/-! ### What is sent -/

/-- **Everybody else gets a message**, when every key can be printed. -/
theorem sendAll_sent {e : Establisher} {source : String} {text : EthereumKey → String}
    (hkey : e.key.toString = .ok source)
    (hothers : ∀ k ∈ e.othersParties, k.toString = .ok (text k)) (content : String) : (Act.exec (sendAll (.ok content)) e).2.sent =
      e.sent ++ e.othersParties.map fun k => ⟨e.contractId, text k, source, content⟩ := by
  let send (k : EthereumKey) : Act Establisher Unit := do
    let who ← Act.lift k.toString
    let source ← Act.lift e.key.toString
    let contract ← Act.lift (.ok content)
    modify fun e => { e with sent := e.sent ++ [⟨e.contractId, who, source, contract⟩] }
  have hloop : ∀ (l : List EthereumKey) (s : Establisher), (∀ k ∈ l, k.toString = .ok (text k)) →
      s.contractId = e.contractId → (Act.exec (l.forM send) s).2.sent =
        s.sent ++ l.map fun k => ⟨e.contractId, text k, source, content⟩ := by
    intro l
    induction l with
    | nil => exact fun s _ _ => (List.append_nil _).symm
    | cons k l ih =>
      intro s hl hid
      have hsend : Act.exec (send k) s = (.ok (),
          { s with sent := s.sent ++ [⟨s.contractId, text k, source, content⟩] }) := by
        simp only [send]
        rw [hl k List.mem_cons_self, hkey]
        rfl
      rw [List.forM_eq_forM, List.forM_cons, Act.exec_bind_ok hsend]
      refine (ih { s with sent := s.sent ++ [⟨s.contractId, text k, source, content⟩] }
        (fun k hk => hl k (List.mem_cons_of_mem _ hk)) hid).trans ?_
      rw [hid, List.map_cons, List.append_assoc, List.singleton_append]
  rw [sendAll, Act.exec_get_bind]
  exact hloop e.othersParties e hothers rfl

end Establisher

/-! ### Two executions -/

open Establisher (Able initialized)

/-- Everything but the private keys.  The id of the contract may be made of what the parties print
as. -/
structure World where
  key : EthereumKey
  contract : BlockChainContract
  id : (ℤ → ℤ) → String
  deployment : Option Deployment
  contractSourceHash : String
  id_congr : ∀ π₁ π₂, (∀ k ∈ contract.parties, π₁ k.publicKey = π₂ k.publicKey) → id π₁ = id π₂

namespace World

variable (P : Platform) (w : World)

def others : List EthereumKey := w.contract.parties.filter fun k => !k.sameAccount w.key

/-- Something is deployed, or the own signature is there or can be stored. -/
def CanSend : Prop :=
  w.deployment.isSome = true ∨ (w.contract.signature w.key).isSome = true ∨
    w.contract.contains w.key = true

def start (π : ℤ → ℤ) : Establisher :=
  initialized (w.key.under π) { w.contract.under π with id := w.id π } w.deployment
    w.contractSourceHash

def execution (π : ℤ → ℤ) : Machine Establisher Establisher.Input (Java Unit) where
  step e i := (Establisher.machine P).step e (i.under π)

def sent (π : ℤ → ℤ) (is : List Establisher.Input) : List Message :=
  ((execution P π).run (w.start π) is).sent

variable {P w}

theorem start_othersParties (π : ℤ → ℤ) :
    (w.start π).othersParties = w.others.map (·.under π) := by
  have hothers : (w.start π).othersParties =
      (w.contract.parties.map (·.under π)).filter fun k => !k.equals (w.key.under π) := rfl
  have hequals : (fun k => !EthereumKey.equals k (w.key.under π)) ∘ (EthereumKey.under π) =
      fun k => !k.sameAccount w.key := funext fun k => congrArg (!·) (k.equals_under π w.key)
  rw [hothers, List.filter_map, hequals, others]

theorem start_isDeployed (π : ℤ → ℤ) : (w.start π).isDeployed = w.deployment.isSome := by
  rw [Establisher.isDeployed, start, initialized, Option.isSome_map]

theorem start_signature (π : ℤ → ℤ) :
    (w.start π).contract.signature (w.start π).key = w.contract.signature w.key := by
  rw [BlockChainContract.signature_eq, BlockChainContract.signature_eq]
  simp only [start, initialized, BlockChainContract.under, List.map_map]
  rfl

theorem start_contains (π : ℤ → ℤ) :
    (w.start π).contract.contains (w.start π).key = w.contract.contains w.key := by
  simp only [BlockChainContract.contains, start, initialized, BlockChainContract.under,
    List.any_map]
  rfl

theorem start_canSend (π : ℤ → ℤ) :
    (w.start π).CanSend ↔ w.others ≠ [] ∧ w.CanSend := by
  rw [Establisher.CanSend, Able, start_othersParties, start_isDeployed, start_signature,
    start_contains, CanSend, or_assoc]
  simp

theorem sent_of_mute (h : ¬ (w.others ≠ [] ∧ w.CanSend)) (π : ℤ → ℤ)
    (is : List Establisher.Input) : w.sent P π is = [] := by
  have hmutes := Establisher.kept_mutes (P := P)
  have hkept : (w.start π).Mutes ((execution P π).run (w.start π) is) :=
    (execution P π).invariant (I := fun e => (w.start π).Mutes e) (hmutes.refl _)
      (fun t i ht => hmutes.trans _ _ _ ht (hmutes.act (i.under π) t)) is
  exact hkept.sent fun he => h ((start_canSend π).mp he)

/-- The start, as far as a message shows it. -/
structure Ready (π : ℤ → ℤ) (e : Establisher) : Prop where
  key : e.key = w.key.under π
  othersParties : e.othersParties = w.others.map (·.under π)
  contractId : e.contractId = w.id π
  sent : e.sent = []

theorem ready_start (π : ℤ → ℤ) : w.Ready π (w.start π) :=
  ⟨rfl, start_othersParties π, rfl, rfl⟩

theorem Ready.sendAll {π : ℤ → ℤ} {e : Establisher} (h : w.Ready π e) (content : String) :
    (Act.exec (Establisher.sendAll (.ok content)) e).2.sent =
      w.others.map fun k => ⟨w.id π, k.text π, w.key.text π, content⟩ := by
  have hkey : e.key.toString = .ok (w.key.text π) := by rw [h.key, EthereumKey.toString_under]
  have hothers : ∀ k ∈ e.othersParties, k.toString = .ok (k.text π) := by
    intro k hk
    rw [h.othersParties] at hk
    obtain ⟨k', -, rfl⟩ := List.mem_map.mp hk
    exact k'.toString_under π
  rw [Establisher.sendAll_sent hkey hothers, h.sent, h.othersParties, h.contractId, List.nil_append,
    List.map_map]
  rfl

theorem Ready.shareSign {π : ℤ → ℤ} {e : Establisher} (h : w.Ready π e)
    (hsigned : (e.contract.signature e.key).isSome = true) :
    ∃ content, (Act.exec (Establisher.shareSign P) e).2.sent =
      w.others.map fun k => ⟨w.id π, k.text π, w.key.text π, content⟩ := by
  obtain ⟨signature, hsignature⟩ := Option.isSome_iff_exists.mp hsigned
  have hsent := h.sendAll ("3" ++ Establisher.getStringEncoded P signature)
  refine ⟨"3" ++ Establisher.getStringEncoded P signature, ?_⟩
  rw [Establisher.shareSign, Act.exec_get_bind, hsignature, ← hsent]
  exact Act.after_bind (Q := fun e' => Establisher.sent e' = _) (fun _ _ => rfl) fun _ _ => rfl

/-- **Who can send does**: there are calls that send everybody else the texts of both keys. -/
theorem exists_sent (h : w.CanSend) : ∃ is, ∀ π, ∃ content, w.sent P π is =
    w.others.map fun k => ⟨w.id π, k.text π, w.key.text π, content⟩ := by
  rcases h with hdeployed | hsigned | hcontains
  · refine ⟨[.sendSolidityHash], fun π => ⟨"2" ++ w.contractSourceHash, ?_⟩⟩
    have hsent : w.sent P π [.sendSolidityHash] =
        (Act.exec Establisher.sendSolidityHash (w.start π)).2.sent := rfl
    have hd : (w.start π).isDeployed = true := (start_isDeployed π).trans hdeployed
    rw [hsent, Establisher.sendSolidityHash, Act.exec_get_bind, if_neg (by rw [hd]; simp)]
    exact (ready_start π).sendAll _
  · refine ⟨[.shareSign], fun π => (ready_start π).shareSign ?_⟩
    rwa [start_signature]
  · let signature : EthereumSignature := ⟨⟨none, none, none, none, none, none⟩, none⟩
    refine ⟨[.addSignature (some w.key) signature, .shareSign], fun π => ?_⟩
    refine Ready.shareSign ⟨rfl, start_othersParties π, rfl, rfl⟩ ?_
    exact BlockChainContract.addSignature_signature ((start_contains π).trans hcontains) _

/-- With the same private keys everything that matters is the same. -/
theorem same_start {π₁ π₂ : ℤ → ℤ} (hkey : π₁ w.key.publicKey = π₂ w.key.publicKey)
    (hothers : ∀ k ∈ w.others, π₁ k.publicKey = π₂ k.publicKey) :
    (w.start π₁).Same (w.start π₂) := by
  have hparties : ∀ k ∈ w.contract.parties, π₁ k.publicKey = π₂ k.publicKey := by
    intro k hk
    by_cases hown : k.sameAccount w.key = true
    · obtain ⟨-, hpublic⟩ := Bool.and_eq_true_iff.mp hown
      rw [beq_iff_eq.mp hpublic, hkey]
    · exact hothers k (List.mem_filter.mpr ⟨hk, by simpa using hown⟩)
  have hmap : w.contract.parties.map (·.under π₁) = w.contract.parties.map (·.under π₂) :=
    List.map_congr_left fun k hk => EthereumKey.under_congr (hparties k hk)
  have hid := w.id_congr π₁ π₂ hparties
  have hsignatures : (w.contract.under π₁).signatures.map (fun e => (e.1.ref, e.2)) =
      (w.contract.under π₂).signatures.map fun e => (e.1.ref, e.2) := by
    simp only [BlockChainContract.under, List.map_map]
    rfl
  refine ⟨EthereumKey.under_congr hkey, ⟨hid, rfl, hmap, rfl, hsignatures, rfl, rfl, rfl⟩, hid, ?_,
    rfl, rfl, rfl, rfl, rfl⟩
  rw [start_othersParties, start_othersParties]
  exact List.map_congr_left fun k hk => EthereumKey.under_congr (hothers k hk)

/-- **When private keys do not reach the network**: when those that are printed are the same, or
nothing can be sent. -/
theorem private_iff (w : World) (π₁ π₂ : ℤ → ℤ) :
    (∀ is, w.sent P π₁ is = w.sent P π₂ is) ↔ (w.CanSend → ∀ k ∈ w.others,
      π₁ w.key.publicKey = π₂ w.key.publicKey ∧ π₁ k.publicKey = π₂ k.publicKey) := by
  constructor
  · intro h hcan k hk
    obtain ⟨is, hsent⟩ := exists_sent (P := P) hcan
    obtain ⟨content₁, h₁⟩ := hsent π₁
    obtain ⟨content₂, h₂⟩ := hsent π₂
    have hall := (h₁.symm.trans (h is)).trans h₂
    have hmessage := List.map_inj_left.mp hall k hk
    rw [Message.mk.injEq] at hmessage
    exact ⟨EthereumKey.text_inj.mp hmessage.2.2.1, EthereumKey.text_inj.mp hmessage.2.1⟩
  · intro h is
    by_cases hcan : w.others ≠ [] ∧ w.CanSend
    · obtain ⟨k, hk⟩ := List.exists_mem_of_ne_nil _ hcan.1
      have hsame := same_start (h hcan.2 k hk).1 fun k hk => (h hcan.2 k hk).2
      exact ((execution P π₁).run_simulation (execution P π₂) hsame
        (fun s t i hst => (hst.act π₁ π₂ i).2) is).sent
    · rw [sent_of_mute hcan, sent_of_mute hcan]

/-! ### One of two parties -/

def hashed (P : Platform) (c : BlockChainContract) (π : ℤ → ℤ) : String :=
  match (c.under π).getHashableData P with
  | .ok digest => bytesToHex digest.1
  | .error _ => ""

theorem hashed_congr (c : BlockChainContract) (π₁ π₂ : ℤ → ℤ)
    (h : ∀ k ∈ c.parties, π₁ k.publicKey = π₂ k.publicKey) :
    hashed P c π₁ = hashed P c π₂ := by
  have hmap : c.parties.map (·.under π₁) = c.parties.map (·.under π₂) :=
    List.map_congr_left fun k hk => EthereumKey.under_congr (h k hk)
  unfold hashed BlockChainContract.getHashableData
  simp only [BlockChainContract.under, hmap]

def sample : World where
  key := Establisher.sampleKey 0 10 171 "ab"
  contract := Establisher.sampleContract
  id := hashed Establisher.samplePlatform Establisher.sampleContract
  deployment := some ⟨some "0xd0", "0xe0", Establisher.sampleTerms⟩
  contractSourceHash := "source"
  id_congr := hashed_congr _

/-- The private key of the other party, as it is and as another one. -/
def privateKey (n : ℤ) : ℤ := if n = 205 then 12 else 10

def otherPrivateKey (n : ℤ) : ℤ := if n = 205 then 13 else 10

theorem private_key_sent : ¬ ∀ is, sample.sent Establisher.samplePlatform privateKey is =
    sample.sent Establisher.samplePlatform otherPrivateKey is := by
  intro h
  exact absurd (congrArg (List.map Message.who) (h [.sendSolidityHash])) (by decide +kernel)

end World

end SXP.BlockChain
