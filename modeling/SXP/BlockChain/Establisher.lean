import SXP.BlockChain.Contract
import SXP.Lib.Machine

/-!
# The establisher on the block chain

It sends the address and the source of the contract that it has deployed and its own signature to
the other parties, and listens to theirs.  `sent` has the arguments of the calls of `sendContract`.
-/

namespace SXP.BlockChain

open SXP.Lib SXP.Lib.Java SXP.Lib.Text SXP.Lib.Hex
open SXP.Sigma (Status)

structure Message where
  title : String
  who : String
  sourceId : String
  contract : String
deriving DecidableEq, Repr

/-- What `deploy` leaves: an address, unless it throws at the end. -/
structure Deployment where
  contractAddress : Option String
  transactionHash : String
  terms : Terms

structure Establisher where
  key : EthereumKey
  contract : BlockChainContract
  contractId : String
  othersParties : List EthereumKey
  contractAddress : Option String
  deployedContractHash : Option String
  contractSourceHash : String
  shareTxSign : Bool
  sent : List Message

namespace Establisher

/-- `initialize`, with or without a contract that is deployed. -/
def initialized (key : EthereumKey) (c : BlockChainContract) (deployment : Option Deployment)
    (contractSourceHash : String) : Establisher where
  key := key
  contract := { c with signer := some (deployment.map Deployment.terms) }
  contractId := c.id
  othersParties := c.parties.filter fun k => !k.equals key
  contractAddress := deployment.bind Deployment.contractAddress
  deployedContractHash := deployment.map Deployment.transactionHash
  contractSourceHash := contractSourceHash
  shareTxSign := false
  sent := []

def isDeployed (e : Establisher) : Bool := e.deployedContractHash.isSome

def onContract {α : Type} (x : Act BlockChainContract α) : Act Establisher α :=
  Act.within contract (fun c e => { e with contract := c }) x

variable (P : Platform)

/-! ### Signatures as texts -/

/-- `\s` -/
def isBlank (c : Char) : Bool := c ∈ [' ', '\t', '\n', '\x0b', '\x0c', '\r']

/-- `split("\\s+")`: an empty first part stays, empty last parts do not. -/
def splitBlank (s : String) : List String :=
  match s.toList.splitOnP isBlank with
  | [] => []
  | [part] => [String.ofList part]
  | first :: rest =>
      match rest.filter fun part => !part.isEmpty with
      | [] => if first.isEmpty then [] else [String.ofList first]
      | parts => (first :: parts).map String.ofList

/-- `new EthereumSignature(transactionReceiptEncoded)`. -/
def ofEncoded (text : String) : Java EthereumSignature :=
  match splitBlank (P.decodeAsString text) with
  | transactionHash :: sender :: blockHash :: recipient :: gasUsed :: contractAddress :: _ =>
      pure ⟨⟨some transactionHash, some sender, some blockHash, some recipient, some gasUsed,
        some contractAddress⟩, some contractAddress⟩
  | _ => throw .indexOutOfBounds

/-- What is encoded: a field that is null is printed as `null`. -/
def receiptText (receipt : TransactionReceipt) : String :=
  valueOf receipt.transactionHash ++ " " ++ valueOf receipt.sender ++ " " ++
    valueOf receipt.blockHash ++ " " ++ valueOf receipt.recipient ++ " " ++
    valueOf receipt.gasUsed ++ " " ++ valueOf receipt.contractAddress

def getStringEncoded (s : EthereumSignature) : String :=
  P.encodeAsString (receiptText s.transactionReceipt)

/-! ### Sending -/

/-- One call of `sendContract` for each of the other parties. -/
def sendAll (content : Java String) : Act Establisher Unit := do
  let e ← get
  e.othersParties.forM fun k => do
    let who ← Act.lift k.toString
    let source ← Act.lift e.key.toString
    let contract ← Act.lift content
    modify fun e => { e with sent := e.sent ++ [⟨e.contractId, who, source, contract⟩] }

def sendContractAddr : Act Establisher Unit := do
  let e ← get
  if !e.isDeployed then Act.lift (throw .nullPointer)
  else sendAll do
    let address ← nonNull e.contractAddress
    return "1" ++ bytesToHex (getBytes address)

def sendSolidityHash : Act Establisher Unit := do
  let e ← get
  if !e.isDeployed then Act.lift (throw .nullPointer)
  else sendAll (pure ("2" ++ e.contractSourceHash))

def shareSign : Act Establisher Unit := do
  let e ← get
  sendAll do
    let signature ← nonNull (e.contract.signature e.key)
    return "3" ++ getStringEncoded P signature
  modify fun e => { e with shareTxSign := true }

def start : Act Establisher Unit := do
  let e ← get
  if e.isDeployed then do
    sendContractAddr
    sendSolidityHash

def sign (c : Option BlockChainContract) (answer : Option EthereumSignature) :
    Act Establisher Unit := do
  let e ← get
  let _ ← onContract (BlockChainContract.sign (e.contract.signer.getD none) e.key answer)
  let _ ← onContract (BlockChainContract.checkContrat P c)
  shareSign P

/-! ### Receiving -/

def containsParti (key : String) : List EthereumKey → Java Bool :=
  any fun part => do
    let text ← part.toString
    return text == key

def upDateSignatures (who txSign : String) : Act Establisher Unit := do
  let e ← get
  e.contract.parties.forM fun k => do
    let text ← Act.lift k.toString
    if text == who then do
      let _ ← Act.lift e.key.toString
      let signature ← Act.lift (ofEncoded P txSign)
      onContract (BlockChainContract.addSignature (some k) signature)

/-- What is done with a content, by its first character. -/
def handle (sourceId : String) (content : List Char) : Act Establisher Unit := do
  let e ← get
  match content with
  | [] => Act.lift (throw .stringIndexOutOfBounds)
  | '1' :: rest => do
      let _ ← Act.lift e.key.toString
      if !e.isDeployed then
        modify fun e => { e with contractAddress := some (String.ofList rest) }
  | '2' :: rest => do
      let _ ← Act.lift e.key.toString
      if e.contractSourceHash != String.ofList rest then
        Act.lift (throw (.runtime "SoliditySrc doesn't match"))
  | '3' :: rest => do
      let _ ← Act.lift e.key.toString
      upDateSignatures P sourceId (String.ofList rest)
      let e ← get
      if !e.shareTxSign && (e.contract.signature e.key).isSome then shareSign P
      let e ← get
      let _ ← onContract (BlockChainContract.checkContrat P (some e.contract))
  | _ => Act.lift (throw (.runtime "Sent a bad content"))

/-- The listener.  A message with the title of the contract is refused. -/
def notify (m : Message) : Act Establisher Unit := do
  let e ← get
  let party ← Act.lift (containsParti m.sourceId e.contract.parties)
  if !party then Act.lift (throw (.runtime "Sender isn't a parti of contract"))
  else if m.title == e.contractId then Act.lift (throw (.runtime "ID doesn't match"))
  else handle P m.sourceId m.contract.toList

/-! ### Runs -/

inductive Input where
  | addSignature (k : Option EthereumKey) (s : EthereumSignature)
  | signContract (k : EthereumKey) (answer : Option EthereumSignature)
  | checkContrat (c : Option BlockChainContract)
  | sign (c : Option BlockChainContract) (answer : Option EthereumSignature)
  | start
  | sendContractAddr
  | sendSolidityHash
  | shareSign
  | notify (m : Message)

def act : Input → Act Establisher Unit
  | .addSignature k s => onContract (BlockChainContract.addSignature k s)
  | .signContract k answer => do
      let e ← get
      let _ ← onContract (BlockChainContract.sign (e.contract.signer.getD none) k answer)
  | .checkContrat c => do
      let _ ← onContract (BlockChainContract.checkContrat P c)
  | .sign c answer => sign P c answer
  | .start => start
  | .sendContractAddr => sendContractAddr
  | .sendSolidityHash => sendSolidityHash
  | .shareSign => shareSign P
  | .notify m => notify P m

def machine : Machine Establisher Input (Java Unit) where
  step e i := Act.exec (act P i) e

/-! ### What a call does -/

def Able (e : Establisher) : Prop :=
  e.isDeployed = true ∨ (e.contract.signature e.key).isSome = true

/-- A message with the title of the contract, from the own key to one of the other parties. -/
structure Sends (e : Establisher) (m : Message) : Prop where
  able : Able e
  title : m.title = e.contractId
  who : ∃ k ∈ e.othersParties, k.toString = .ok m.who
  source : e.key.toString = .ok m.sourceId

theorem sendAll_sends {content : Java String} {e : Establisher}
    (hable : ∀ text, content = .ok text → Able e) :
    ∃ new, (Act.exec (sendAll content) e).2 = { e with sent := e.sent ++ new } ∧
      ∀ m ∈ new, Sends e m := by
  let R (s s' : Establisher) : Prop := ∃ new, s' = { s with sent := s.sent ++ new } ∧
    (s.contractId = e.contractId → ∀ m ∈ new, Sends e m)
  have hr : ∀ s, R s s := fun s => ⟨[], by rw [List.append_nil], by simp⟩
  have ht : ∀ s s' s'', R s s' → R s' s'' → R s s'' := by
    rintro s s' s'' ⟨new, rfl, h⟩ ⟨new', rfl, h'⟩
    refine ⟨new ++ new', by rw [List.append_assoc], fun hid => ?_⟩
    exact List.forall_mem_append.mpr ⟨h hid, h' hid⟩
  have hloop : R e (Act.exec (sendAll content) e).2 := by
    rw [sendAll, Act.exec_get_bind]
    refine Act.keeps_forM hr ht (fun k hk s => ?_) e
    refine Act.after_lift (hr s) fun who hwho => ?_
    refine Act.after_lift (hr s) fun source hsource => ?_
    refine Act.after_lift (hr s) fun contract hcontract => ?_
    refine ⟨[⟨s.contractId, who, source, contract⟩], rfl, fun hid m hm => ?_⟩
    rw [List.mem_singleton.mp hm]
    exact ⟨hable contract hcontract, hid, ⟨k, hk, hwho⟩, hsource⟩
  obtain ⟨new, hnew, h⟩ := hloop
  exact ⟨new, hnew, h rfl⟩

structure Kept (R : Establisher → Establisher → Prop) : Prop where
  refl : ∀ e, R e e
  trans : ∀ e e' e'', R e e' → R e' e'' → R e e''
  addSignature : ∀ e k s, R e (Act.exec (onContract (BlockChainContract.addSignature k s)) e).2
  checkContrat : ∀ e c, R e (Act.exec (onContract (BlockChainContract.checkContrat P c)) e).2
  sign : ∀ e terms k answer,
    R e (Act.exec (onContract (BlockChainContract.sign terms k answer)) e).2
  sends : ∀ e new, (∀ m ∈ new, Sends e m) → R e { e with sent := e.sent ++ new }
  address : ∀ e a, R e { e with contractAddress := a }
  shared : ∀ e, R e { e with shareTxSign := true }

namespace Kept

variable {P} {R : Establisher → Establisher → Prop} (h : Kept P R)
include h

theorem sendAll {content : Java String} {e : Establisher}
    (hable : ∀ text, content = .ok text → Able e) :
    R e (Act.exec (Establisher.sendAll content) e).2 := by
  obtain ⟨new, hnew, hsends⟩ := sendAll_sends hable
  rw [hnew]
  exact h.sends e new hsends

theorem sendContractAddr (e : Establisher) :
    R e (Act.exec Establisher.sendContractAddr e).2 := by
  rw [Establisher.sendContractAddr, Act.exec_get_bind]
  split
  · exact h.refl e
  · next hd => exact h.sendAll fun _ _ => Or.inl (by simpa using hd)

theorem sendSolidityHash (e : Establisher) :
    R e (Act.exec Establisher.sendSolidityHash e).2 := by
  rw [Establisher.sendSolidityHash, Act.exec_get_bind]
  split
  · exact h.refl e
  · next hd => exact h.sendAll fun _ _ => Or.inl (by simpa using hd)

theorem shareSign (e : Establisher) : R e (Act.exec (Establisher.shareSign P) e).2 := by
  rw [Establisher.shareSign, Act.exec_get_bind]
  refine Act.keeps_bind h.trans (h.sendAll fun text htext => ?_) fun _ _ => h.shared _
  obtain ⟨signature, hs, -⟩ := bind_eq_ok.mp htext
  exact Or.inr (Option.isSome_iff_exists.mpr ⟨signature, nonNull_eq_ok.mp hs⟩)

theorem check (c : Option BlockChainContract) (e : Establisher) :
    R e (Act.exec (do
      let _ ← onContract (BlockChainContract.checkContrat P c) : Act Establisher Unit) e).2 :=
  Act.keeps_bind h.trans (h.checkContrat e c) fun _ _ => h.refl _

theorem upDateSignatures (who txSign : String) (e : Establisher) :
    R e (Act.exec (Establisher.upDateSignatures P who txSign) e).2 := by
  rw [Establisher.upDateSignatures, Act.exec_get_bind]
  refine Act.keeps_forM h.refl h.trans (fun k _ e => ?_) e
  refine Act.after_lift (h.refl e) fun text _ => ?_
  split
  · refine Act.after_lift (h.refl e) fun own _ => ?_
    refine Act.after_lift (h.refl e) fun signature _ => ?_
    exact h.addSignature e (some k) signature
  · exact h.refl e

theorem handle (sourceId : String) (content : List Char) (e : Establisher) :
    R e (Act.exec (Establisher.handle P sourceId content) e).2 := by
  unfold Establisher.handle
  rw [Act.exec_get_bind]
  split
  · exact h.refl e
  · refine Act.after_lift (h.refl e) fun own _ => ?_
    split
    · exact h.address e _
    · exact h.refl e
  · refine Act.after_lift (h.refl e) fun own _ => ?_
    split
    · exact h.refl e
    · exact h.refl e
  · refine Act.after_lift (h.refl e) fun own _ => ?_
    refine Act.keeps_bind h.trans (h.upDateSignatures sourceId _ e) fun _ _ => ?_
    rw [Act.exec_get_bind]
    split
    · refine Act.keeps_bind h.trans (h.shareSign _) fun _ _ => ?_
      rw [Act.exec_get_bind]
      exact h.check _ _
    · rw [Act.exec_get_bind]
      exact h.check _ _
  · exact h.refl e

theorem notify (m : Message) (e : Establisher) :
    R e (Act.exec (Establisher.notify P m) e).2 := by
  rw [Establisher.notify, Act.exec_get_bind]
  refine Act.after_lift (h.refl e) fun party _ => ?_
  split
  · exact h.refl e
  · split
    · exact h.refl e
    · exact h.handle m.sourceId _ e

/-- **Whatever is called**, the relation is kept. -/
theorem act (i : Input) (e : Establisher) : R e (Act.exec (Establisher.act P i) e).2 := by
  cases i with
  | addSignature k s => exact h.addSignature e k s
  | signContract k answer =>
    rw [Establisher.act, Act.exec_get_bind]
    exact Act.keeps_bind h.trans (h.sign e _ k answer) fun _ _ => h.refl _
  | checkContrat c => exact h.check c e
  | sign c answer =>
    rw [Establisher.act, Establisher.sign, Act.exec_get_bind]
    refine Act.keeps_bind h.trans (h.sign e _ e.key answer) fun _ _ => ?_
    exact Act.keeps_bind h.trans (h.checkContrat _ c) fun _ _ => h.shareSign _
  | start =>
    rw [Establisher.act, Establisher.start, Act.exec_get_bind]
    split
    · exact Act.keeps_bind h.trans (h.sendContractAddr e) fun _ _ => h.sendSolidityHash _
    · exact h.refl e
  | sendContractAddr => exact h.sendContractAddr e
  | sendSolidityHash => exact h.sendSolidityHash e
  | shareSign => exact h.shareSign e
  | notify m => exact h.notify m e

theorem run (e : Establisher) (is : List Input) : R e ((machine P).run e is) :=
  (machine P).invariant (I := R e) (h.refl e) (fun t i ht => h.trans _ _ _ ht (h.act i t)) is

end Kept

/-! ### Two parties -/

def sampleKey (ref : ℕ) (privateKey publicKey : ℤ) (address : String) : EthereumKey :=
  ⟨ref, some privateKey, publicKey, address, ⟨privateKey, publicKey, address⟩⟩

def sampleContract : BlockChainContract where
  id := "4B"
  date := some 0
  parties := [sampleKey 0 10 171 "ab", sampleKey 1 12 205 "cd"]
  clauses := some ["1 apple", "2 pears"]
  signatures := []
  hasSignatures := true
  status := some .nowhere
  signer := none
  checks := []

def sampleAddress (last : Char) (h : last ∈ lowerDigits) : Address where
  text := String.ofList ('0' :: 'x' :: (List.replicate 39 '0' ++ [last]))
  form := by
    refine ⟨_, String.toList_ofList, rfl, fun c hc => ?_⟩
    rcases List.mem_append.mp hc with hc | hc
    · rw [List.eq_of_mem_replicate hc]
      decide
    · rw [List.mem_singleton.mp hc]
      exact h

def sampleTerms : Terms where
  addr1 := sampleAddress 'a' (by decide)
  addr2 := sampleAddress 'b' (by decide)
  clause1 := "1 apple"
  clause2 := "2 pears"

/-- Of the texts in the samples only one is encoded. -/
def samplePlatform : Platform where
  hash := sha256
  zone := .utc
  encodeAsString := fun s => if s = "t s b r g c" then "dCBzIGIgciBnIGM=" else ""
  decodeAsString := fun s => if s = "dCBzIGIgciBnIGM=" then "t s b r g c" else ""

end Establisher

end SXP.BlockChain
