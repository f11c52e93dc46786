import SXP.Lib.Act
import SXP.Lib.Date
import SXP.Lib.Hex
import SXP.Lib.Sha256
import SXP.Sigma.Contract

/-!
# Contracts on the block chain

The keys, the terms of the deployed contract, and the contract that parties sign with a
transaction each.  A key is a key of the maps as an object: the class has an `equals` of its own,
but not the one that maps use.
-/

namespace SXP.BlockChain

open SXP.Lib SXP.Lib.Java SXP.Lib.Text SXP.Lib.Hex
open SXP.Sigma (Status)

/-! ### Keys -/

/-- The pair of keys and the address inside an `EthereumKey`. -/
structure Credentials where
  privateKey : ℤ
  publicKey : ℤ
  address : String
deriving DecidableEq, Repr

structure EthereumKey where
  ref : ℕ
  privateKey : Option ℤ
  publicKey : ℤ
  address : String
  credentials : Credentials
deriving DecidableEq, Repr

namespace EthereumKey

def equals (k account : EthereumKey) : Bool :=
  k.address == account.address && k.credentials == account.credentials

def toHexStringWithPrefix (n : ℤ) : String := "0x" ++ hexadecimal n

/-- The private key is part of it. -/
def toString (k : EthereumKey) : Java String := do
  let privateKey ← nonNull k.privateKey
  return "Private key : \n" ++ toHexStringWithPrefix privateKey ++ "\n\n" ++
    "Private public : \n" ++ toHexStringWithPrefix k.publicKey

end EthereumKey

/-! ### Transactions -/

/-- The fields of a receipt that are sent.  Each of them may be null: a call of a method has no
contract address. -/
structure TransactionReceipt where
  transactionHash : Option String
  sender : Option String
  blockHash : Option String
  recipient : Option String
  gasUsed : Option String
  contractAddress : Option String
deriving DecidableEq, Repr

structure EthereumSignature where
  transactionReceipt : TransactionReceipt
  contractAddr : Option String
deriving DecidableEq, Repr

/-- `new EthereumSignature(transactionReceipt)`. -/
def EthereumSignature.ofReceipt (transactionReceipt : TransactionReceipt) : EthereumSignature where
  transactionReceipt := transactionReceipt
  contractAddr := transactionReceipt.contractAddress

def lowerDigits : List Char := "0123456789abcdef".toList

/-- An address on the chain, as it is printed: with a prefix and 40 digits. -/
structure Address where
  text : String
  form : ∃ digits, text.toList = '0' :: 'x' :: digits ∧ digits.length = 40 ∧
    ∀ c ∈ digits, c ∈ lowerDigits
deriving DecidableEq

/-- What the getters of the deployed contract return. -/
structure Terms where
  addr1 : Address
  addr2 : Address
  clause1 : String
  clause2 : String
deriving DecidableEq

/-- The digest and the time zone of the platform, and its Base64. -/
structure Platform where
  hash : List UInt8 → Digest
  zone : Date.TimeZone
  encodeAsString : String → String
  decodeAsString : String → String

def toByteArray (n : ℤ) : List UInt8 :=
  let bits := if n < 0 then (-n - 1).toNat.size else n.toNat.size
  (List.range (bits / 8 + 1)).reverse.map fun i => UInt8.ofNat (n / 256 ^ i % 256).toNat

/-- Without the byte of a sign. -/
def bigIntegerToBytes (n : ℤ) : List UInt8 :=
  match toByteArray n with
  | 0 :: b :: rest => b :: rest
  | data => data

/-- `ArrayList.toString`. -/
def listText (l : List String) : String := "[" ++ ", ".intercalate l ++ "]"

/-! ### Contracts -/

/-- What `checkContrat` found, and what it answered. -/
structure Check where
  equal : Java Bool
  finalized : Java Bool
  answer : Java Bool

/-- `signer` has the terms of the contract that it has deployed; `hasSignatures` says that the
entity has a map of signatures; `checks` is a record of the calls of `checkContrat`. -/
structure BlockChainContract where
  id : String
  date : Option ℤ
  parties : List EthereumKey
  clauses : Option (List String)
  signatures : List (EthereumKey × EthereumSignature)
  hasSignatures : Bool
  status : Option Status
  signer : Option (Option Terms)
  checks : List Check

namespace BlockChainContract

variable (P : Platform)

def contains (c : BlockChainContract) (k : EthereumKey) : Bool :=
  c.parties.any fun k' => k'.ref == k.ref

def signature (c : BlockChainContract) (k : EthereumKey) : Option EthereumSignature :=
  (c.signatures.find? fun e => e.1.ref == k.ref).map Prod.snd

def put (c : BlockChainContract) (k : EthereumKey) (s : EthereumSignature) : BlockChainContract :=
  { c with signatures := (k, s) :: c.signatures.filter fun e => e.1.ref != k.ref }

theorem signature_put (c : BlockChainContract) (k k' : EthereumKey) (s : EthereumSignature) :
    (c.put k s).signature k' = if k.ref = k'.ref then some s else c.signature k' := by
  rw [put, signature, signature, List.find?_cons]
  by_cases h : k.ref = k'.ref
  · rw [if_pos h, beq_iff_eq.mpr h]
    rfl
  · rw [if_neg h, beq_eq_false_iff_ne.mpr h]
    dsimp only
    congr 1
    rw [List.find?_filter]
    congr 1
    funext e
    by_cases he : e.1.ref = k'.ref
    · simp [he, Ne.symm h]
    · simp [he]

/-- The digest of what the contract prints as. -/
def getHashableData (c : BlockChainContract) : Java Digest := do
  let parties ← collect EthereumKey.toString c.parties
  let clauses ← nonNull c.clauses
  let date ← nonNull c.date
  return P.hash (getBytes (listText parties ++ listText clauses ++ Date.toString P.zone date))

/-- One party after the other is compared with the first address, the ones behind it with the
second. -/
def verif (t : Terms) (c : BlockChainContract) : Java Bool :=
  let address k := bytesToHex (bigIntegerToBytes (EthereumKey.publicKey k))
  match c.parties.dropWhile fun k => address k != t.addr1.text with
  | [] => pure false
  | _ :: rest =>
      if rest.any fun k => address k == t.addr2.text then do
        let clauses ← nonNull c.clauses
        return clauses.contains t.clause1 && clauses.contains t.clause2
      else pure false

/-- `EthereumSigner.verify`: nothing of the signature is looked at.  Without a deployed contract
the verifier cannot be made. -/
def verify (c : BlockChainContract) (terms : Option Terms) : Java Bool :=
  match terms with
  | none => pure false
  | some t => c.verif t

def isFinalized (c : BlockChainContract) : Java Bool := do
  let terms ← nonNull c.signer
  if c.parties.all fun k => (c.signature k).isSome then
    all (fun _ => c.verify terms) c.signatures
  else return false

/-- The object is put in the map before the entity is touched. -/
def addSignature (k : Option EthereumKey) (s : EthereumSignature) :
    Act BlockChainContract Unit := do
  match k with
  | none => Act.lift (throw (.runtime "invalid key"))
  | some k => do
      let c ← get
      if !c.contains k then Act.lift (throw (.runtime "invalid key"))
      else do
        modify fun c => c.put k s
        if !c.hasSignatures then Act.lift (throw .nullPointer)
        else do
          let c ← get
          let finalized ← Act.lift c.isFinalized
          if finalized then modify fun c => { c with status := some .finalized }

/-- An object of another class is not equal. -/
def equals (c : BlockChainContract) : Option BlockChainContract → Java Bool
  | none => pure false
  | some other =>
      if other.clauses.isNone then pure false
      else do
        let mine ← c.getHashableData P
        let others ← other.getHashableData P
        return mine == others

/-- `!equals && !isFinalized` refuses. -/
def checkContrat (other : Option BlockChainContract) : Act BlockChainContract Bool := do
  let c ← get
  let answer := do
    let equal ← c.equals P other
    if equal then return true else c.isFinalized
  modify fun c => { c with checks := c.checks ++ [⟨c.equals P other, c.isFinalized, answer⟩] }
  let accepted ← Act.lift answer
  if accepted then modify fun c => { c with status := some .finalized }
  return accepted

/-- The answer of the chain to the transaction, unless no contract is deployed here. -/
def transact (terms : Option Terms) (answer : Option EthereumSignature) :
    Option EthereumSignature :=
  terms.bind fun _ => answer

def sign (terms : Option Terms) (k : EthereumKey) (answer : Option EthereumSignature) :
    Act BlockChainContract EthereumSignature := do
  modify fun c => { c with status := some .signing }
  match transact terms answer with
  | none => Act.lift (throw .nullPointer)
  | some s => do
      addSignature (some k) s
      return s

end BlockChainContract

end SXP.BlockChain
