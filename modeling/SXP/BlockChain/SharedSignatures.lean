import SXP.BlockChain.Establisher
import SXP.Lib.Base64

/-!
# Signatures that are shared

A signature is shared as the six fields of its receipt, with a blank between two of them, and read
again at the blanks.  A field that is null is printed as `null`, and one that is empty or has a
blank moves the others.

What is read from any text is a receipt whose fields can be told apart (`plain_of_ofEncoded`), and
each such receipt is read as it was sent; so `shared_iff` says exactly which signatures arrive.
-/

namespace SXP.BlockChain

open SXP.Lib SXP.Lib.Java SXP.Lib.Text

namespace TransactionReceipt

def fields (receipt : TransactionReceipt) : List (Option String) :=
  [receipt.transactionHash, receipt.sender, receipt.blockHash, receipt.recipient, receipt.gasUsed,
    receipt.contractAddress]

/-- No field is null or has a blank, and none behind the first one is empty. -/
structure Plain (receipt : TransactionReceipt) : Prop where
  solid : ∀ field ∈ receipt.fields,
    ∃ text, field = some text ∧ ∀ c ∈ text.toList, Establisher.isBlank c = false
  nonempty : ∀ field ∈ receipt.fields.tail, field ≠ some ""

def printed (receipt : TransactionReceipt) : TransactionReceipt where
  transactionHash := some (valueOf receipt.transactionHash)
  sender := some (valueOf receipt.sender)
  blockHash := some (valueOf receipt.blockHash)
  recipient := some (valueOf receipt.recipient)
  gasUsed := some (valueOf receipt.gasUsed)
  contractAddress := some (valueOf receipt.contractAddress)

theorem Plain.printed {receipt : TransactionReceipt} (h : receipt.Plain) :
    receipt.printed = receipt := by
  obtain ⟨hash, sender, block, recipient, gas, address⟩ := receipt
  have hsolid := h.solid
  simp only [fields, List.forall_mem_cons] at hsolid
  obtain ⟨⟨hash, rfl, -⟩, ⟨sender, rfl, -⟩, ⟨block, rfl, -⟩, ⟨recipient, rfl, -⟩, ⟨gas, rfl, -⟩,
    ⟨address, rfl, -⟩, -⟩ := hsolid
  rfl

end TransactionReceipt

namespace Establisher

open TransactionReceipt

variable {P : Platform} {receipt : TransactionReceipt}

/-! ### Splitting at blanks -/

/-- The parts have no blanks, and only the first one may be empty. -/
theorem splitBlank_solid (s : String) :
    (∀ part ∈ splitBlank s, ∀ c ∈ part.toList, isBlank c = false) ∧
      ∀ part ∈ (splitBlank s).tail, part ≠ "" := by
  have hparts : ∀ part ∈ s.toList.splitOnP isBlank, ∀ c ∈ part, isBlank c = false :=
    fun part hpart => separator_notMem hpart
  unfold splitBlank
  split
  · exact ⟨by simp, by simp⟩
  · rename_i part hs
    rw [hs] at hparts
    simpa using hparts
  · rename_i first rest _ hs
    rw [hs] at hparts
    obtain ⟨hfirst, hrest⟩ := List.forall_mem_cons.mp hparts
    split
    · split
      · exact ⟨by simp, by simp⟩
      · simpa using hfirst
    · -- what is left of the other parts is not empty
      have hkept : ∀ part ∈ rest.filter fun part => !part.isEmpty,
          (∀ c ∈ part, isBlank c = false) ∧ part ≠ [] := by
        intro part hpart
        obtain ⟨hmem, hempty⟩ := List.mem_filter.mp hpart
        exact ⟨hrest part hmem, by simpa using hempty⟩
      constructor
      · intro part hpart
        obtain ⟨l, hl, rfl⟩ := List.mem_map.mp hpart
        rw [String.toList_ofList]
        rcases List.mem_cons.mp hl with rfl | hl
        · exact hfirst
        · exact (hkept l hl).1
      · intro part hpart
        rw [List.map_cons, List.tail_cons] at hpart
        obtain ⟨l, hl, rfl⟩ := List.mem_map.mp hpart
        intro hnil
        exact (hkept l hl).2 (String.ofList_injective hnil)

/-- Parts that can be told apart are split as they were joined. -/
theorem splitBlank_join {s first : String} {rest : List String}
    (hs : s.toList = [' '].intercalate ((first :: rest).map String.toList)) (hrest : rest ≠ [])
    (hblank : ∀ part ∈ first :: rest, ∀ c ∈ part.toList, isBlank c = false)
    (hne : ∀ part ∈ rest, part ≠ "") : splitBlank s = first :: rest := by
  have hsplit : s.toList.splitOnP isBlank = (first :: rest).map String.toList := by
    rw [hs]
    refine splitOnP_intercalate (by decide) (by simp) fun part hpart => ?_
    obtain ⟨text, htext, rfl⟩ := List.mem_map.mp hpart
    exact hblank text htext
  have hkept : (rest.map String.toList).filter (fun part => !part.isEmpty)
      = rest.map String.toList := by
    rw [List.filter_eq_self]
    intro part hpart
    obtain ⟨text, htext, rfl⟩ := List.mem_map.mp hpart
    have htextne := hne text htext
    simpa using htextne
  obtain ⟨second, others, rfl⟩ := List.exists_cons_of_ne_nil hrest
  unfold splitBlank
  rw [hsplit]
  rw [List.map_cons] at hkept
  simp only [List.map_cons, hkept]
  simp [Function.comp_def]

/-! ### Receipts -/

theorem receiptText_toList (receipt : TransactionReceipt) : (receiptText receipt).toList =
    [' '].intercalate ((receipt.fields.map valueOf).map String.toList) := by
  simp [receiptText, fields, List.intercalate_cons_cons, String.toList_append]

/-- **Whatever is decoded can be told apart.** -/
theorem plain_of_ofEncoded {text : String} {s : EthereumSignature} (h : ofEncoded P text = .ok s) :
    s.transactionReceipt.Plain := by
  obtain ⟨hblank, hne⟩ := splitBlank_solid (P.decodeAsString text)
  unfold ofEncoded at h
  split at h
  · rename_i hparts
    obtain rfl := Except.ok.inj h
    rw [hparts] at hblank hne
    simp only [List.tail_cons, List.forall_mem_cons] at hblank hne
    constructor
    · obtain ⟨h₀, h₁, h₂, h₃, h₄, h₅, -⟩ := hblank
      simpa [fields] using ⟨h₀, h₁, h₂, h₃, h₄, h₅⟩
    · simp [fields, hne]
  · cases h

/-- **What arrives**: every field as it is printed, if these texts can be told apart. -/
theorem ofEncoded_printed (hbase : P.decodeAsString (P.encodeAsString (receiptText receipt)) =
    receiptText receipt) (h : receipt.printed.Plain) :
    ofEncoded P (getStringEncoded P (.ofReceipt receipt)) = .ok (.ofReceipt receipt.printed) := by
  have hblank : ∀ part ∈ receipt.fields.map valueOf, ∀ c ∈ part.toList, isBlank c = false := by
    intro part hpart
    obtain ⟨field, hfield, rfl⟩ := List.mem_map.mp hpart
    have hmem : some (valueOf field) ∈ receipt.printed.fields :=
      List.mem_map_of_mem (f := fun field => some (valueOf field)) hfield
    obtain ⟨text, htext, hsolid⟩ := h.solid _ hmem
    rw [Option.some.inj htext]
    exact hsolid
  have hne : ∀ part ∈ receipt.fields.tail.map valueOf, part ≠ "" := by
    rintro part hpart rfl
    obtain ⟨field, hfield, hempty⟩ := List.mem_map.mp hpart
    have hmem : some (valueOf field) ∈ receipt.printed.fields.tail :=
      List.mem_map_of_mem (f := fun field => some (valueOf field)) hfield
    exact h.nonempty _ hmem (congrArg some hempty)
  have hsplit : splitBlank (receiptText receipt) = receipt.fields.map valueOf :=
    splitBlank_join (receiptText_toList receipt) (List.cons_ne_nil _ _) hblank hne
  unfold ofEncoded getStringEncoded EthereumSignature.ofReceipt
  rw [hbase, hsplit]
  rfl

/-- **Which shared signatures arrive as they were**: those whose fields can be told apart. -/
theorem shared_iff (hbase : P.decodeAsString (P.encodeAsString (receiptText receipt)) =
    receiptText receipt) :
    ofEncoded P (getStringEncoded P (.ofReceipt receipt)) = .ok (.ofReceipt receipt) ↔
      receipt.Plain := by
  constructor
  · exact plain_of_ofEncoded
  · intro h
    have harrives := ofEncoded_printed hbase (by rwa [h.printed])
    rwa [h.printed] at harrives

/-! ### Two receipts -/

def base64Platform : Platform where
  hash := sha256
  zone := .utc
  encodeAsString := fun s => String.ofList (Base64.encode (getBytes s))
  decodeAsString := fun s => ((Base64.decode s.toList).map newString).getD ""

theorem decode_base64 (s : String) :
    base64Platform.decodeAsString (base64Platform.encodeAsString s) = s := by
  simp only [base64Platform]
  rw [String.toList_ofList, Base64.decode_encode, Option.map_some, Option.getD_some,
    newString_getBytes]

def deployReceipt : TransactionReceipt where
  transactionHash := some "0x5a"
  sender := some "0x1f"
  blockHash := some "0xb7"
  recipient := some "0x0"
  gasUsed := some "0x5208"
  contractAddress := some "0xc4"

theorem shared_sample : ofEncoded base64Platform
    (getStringEncoded base64Platform (.ofReceipt deployReceipt)) = .ok (.ofReceipt deployReceipt) :=
  (shared_iff (decode_base64 _)).mpr
    ⟨by simp [fields, deployReceipt, isBlank], by simp [fields, deployReceipt]⟩

def callReceipt : TransactionReceipt := { deployReceipt with contractAddress := none }

/-- **A missing address arrives as a text.** -/
theorem call_receipt_changes : ofEncoded base64Platform
      (getStringEncoded base64Platform (.ofReceipt callReceipt)) =
        .ok (.ofReceipt { callReceipt with contractAddress := some "null" }) ∧
    ofEncoded base64Platform (getStringEncoded base64Platform (.ofReceipt callReceipt)) ≠
      .ok (.ofReceipt callReceipt) := by
  have harrives : ofEncoded base64Platform
      (getStringEncoded base64Platform (.ofReceipt callReceipt)) =
        .ok (.ofReceipt callReceipt.printed) := by
    refine ofEncoded_printed (decode_base64 _) ⟨?_, ?_⟩
    · simp [fields, TransactionReceipt.printed, valueOf, callReceipt, deployReceipt, isBlank]
    · simp [fields, TransactionReceipt.printed, valueOf, callReceipt, deployReceipt]
  refine ⟨harrives, ?_⟩
  rw [harrives]
  decide

end Establisher

end SXP.BlockChain
