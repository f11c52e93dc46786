import SXP.BlockChain.Establisher

/-!
# When a contract is final

`addSignature` looks whether everyone has signed.  `checkContrat` refuses only a contract that is
neither equal nor signed by everyone, and the listener calls it with the contract itself.

`final_iff` says which runs are right about that: those in which every contract that is checked is
equal if and only if everyone has signed.
-/

namespace SXP.BlockChain

open SXP.Lib SXP.Lib.Java
open SXP.Sigma (Status)

namespace BlockChainContract

variable {P : Platform}

/-- Every party has a signature, and the signer verifies the signatures. -/
structure Signed (c : BlockChainContract) : Prop where
  stored : ∀ k ∈ c.parties, (c.signature k).isSome = true
  verified : ∃ terms, c.signer = some terms ∧ ∀ e ∈ c.signatures, c.verify terms = .ok true

/-- The status is not ahead of the signatures. -/
def Final (c : BlockChainContract) : Prop := c.status = some .finalized → c.Signed

theorem isFinalized_iff {c : BlockChainContract} : c.isFinalized = .ok true ↔ c.Signed := by
  unfold isFinalized
  simp only [bind_eq_ok, nonNull_eq_ok]
  constructor
  · rintro ⟨terms, hsigner, h⟩
    split at h
    · next hstored =>
      exact ⟨fun k hk => List.all_eq_true.mp hstored k hk, terms, hsigner,
        fun e he => all_eq_true.mp h e he⟩
    · exact absurd h (by simp)
  · rintro ⟨hstored, terms, hsigner, hverified⟩
    refine ⟨terms, hsigner, ?_⟩
    rw [if_pos (List.all_eq_true.mpr hstored)]
    exact all_eq_true.mpr hverified

theorem Signed.congr {c c' : BlockChainContract} (h : c.Signed) (hparties : c'.parties = c.parties)
    (hclauses : c'.clauses = c.clauses) (hsignatures : c'.signatures = c.signatures)
    (hsigner : c'.signer = c.signer) : c'.Signed := by
  have hverify : ∀ terms, c'.verify terms = c.verify terms := by
    intro terms
    cases terms with
    | none => rfl
    | some t => simp only [verify, verif, hparties, hclauses]
  refine ⟨fun k hk => ?_, ?_⟩
  · rw [signature, hsignatures]
    exact h.stored k (hparties ▸ hk)
  · obtain ⟨terms, hs, hall⟩ := h.verified
    exact ⟨terms, hsigner.trans hs, fun e he => (hverify terms).trans (hall e (hsignatures ▸ he))⟩

/-- **Another signature of a party** takes nothing away. -/
theorem Signed.put {c : BlockChainContract} (h : c.Signed) {k : EthereumKey}
    (hk : c.contains k = true) (s : EthereumSignature) : (c.put k s).Signed := by
  obtain ⟨terms, hsigner, hall⟩ := h.verified
  -- a party has signed, so the signer has verified
  have hverify : c.verify terms = .ok true := by
    obtain ⟨k', hk', -⟩ := List.any_eq_true.mp hk
    obtain ⟨s', hs'⟩ := Option.isSome_iff_exists.mp (h.stored k' hk')
    rw [signature, Option.map_eq_some_iff] at hs'
    obtain ⟨e, he, -⟩ := hs'
    exact hall e (List.mem_of_find?_eq_some he)
  refine ⟨fun k' hk' => ?_, terms, hsigner, fun e _ => ?_⟩
  · rw [signature_put]
    split
    · rfl
    · exact h.stored k' hk'
  · cases terms with
    | none => exact hverify
    | some t => exact hverify

end BlockChainContract

/-! ### Checks -/

namespace Check

def Formed (check : Check) : Prop :=
  check.answer = check.equal >>= fun equal => if equal then return true else check.finalized

/-- Only a contract that is equal is final, and one that is equal is. -/
def Agrees (check : Check) : Prop :=
  ∀ equal, check.equal = .ok equal → (equal = true ↔ check.finalized = .ok true)

/-- True is the answer exactly for a contract that is equal and final. -/
def Exact (check : Check) : Prop :=
  check.answer = .ok true ↔ check.equal = .ok true ∧ check.finalized = .ok true

theorem Formed.exact_iff {check : Check} (h : check.Formed) : check.Exact ↔ check.Agrees := by
  unfold Exact Agrees
  rw [h]
  rcases check.equal with e | _ | _
  · simp
  · simp
  · simp [eq_comm]

end Check

namespace BlockChainContract

variable {P : Platform}

/-- What a call does: it writes down its checks, and when they are right the status stays behind
the signatures. -/
def Keeps (c c' : BlockChainContract) : Prop :=
  ∃ new, c'.checks = c.checks ++ new ∧ (∀ check ∈ new, check.Formed) ∧
    ((∀ check ∈ new, check.Agrees) → c.Final → c'.Final)

theorem Keeps.refl (c : BlockChainContract) : Keeps c c :=
  ⟨[], (List.append_nil _).symm, by simp, fun _ h => h⟩

theorem Keeps.trans (c c' c'' : BlockChainContract) (h : Keeps c c') (h' : Keeps c' c'') :
    Keeps c c'' := by
  obtain ⟨new, hnew, hformed, hfinal⟩ := h
  obtain ⟨new', hnew', hformed', hfinal'⟩ := h'
  refine ⟨new ++ new', by rw [hnew', hnew, List.append_assoc], ?_, fun hagrees h => ?_⟩
  · exact List.forall_mem_append.mpr ⟨hformed, hformed'⟩
  · obtain ⟨hleft, hright⟩ := List.forall_mem_append.mp hagrees
    exact hfinal' hright (hfinal hleft h)

theorem Keeps.of_final {c c' : BlockChainContract} (hchecks : c'.checks = c.checks)
    (h : c.Final → c'.Final) : Keeps c c' :=
  ⟨[], by rw [hchecks, List.append_nil], by simp, fun _ => h⟩

theorem addSignature_keeps (k : Option EthereumKey) (s : EthereumSignature)
    (c : BlockChainContract) : Keeps c (Act.exec (addSignature k s) c).2 := by
  cases k with
  | none => exact Keeps.refl c
  | some k =>
    rw [addSignature, Act.exec_get_bind]
    split
    · exact Keeps.refl c
    · next hk =>
      have hk : c.contains k = true := by simpa using hk
      have hput : Keeps c (c.put k s) := Keeps.of_final rfl fun h hs => (h hs).put hk s
      rw [Act.exec_modify_bind]
      split
      · exact hput
      · rw [Act.exec_get_bind]
        refine Act.after_lift hput fun finalized hf => ?_
        cases finalized with
        | false => exact hput
        | true => exact Keeps.of_final rfl fun _ _ => (isFinalized_iff.mp hf).congr rfl rfl rfl rfl

theorem checkContrat_keeps (other : Option BlockChainContract) (c : BlockChainContract) :
    Keeps c (Act.exec (checkContrat P other) c).2 := by
  rw [checkContrat, Act.exec_get_bind, Act.exec_modify_bind]
  -- the check is written down in any case
  have hcheck : ∀ status, ((∀ equal, c.equals P other = .ok equal →
      (equal = true ↔ c.isFinalized = .ok true)) → status = some .finalized →
        c.Final → c.Signed) →
      Keeps c { c with
        status := status
        checks := c.checks ++ [⟨c.equals P other, c.isFinalized,
          c.equals P other >>= fun equal => if equal then return true else c.isFinalized⟩] } := by
    intro status h
    refine ⟨_, rfl, by simp [Check.Formed], fun hagrees hfinal hs => ?_⟩
    exact (h (hagrees _ List.mem_cons_self) hs hfinal).congr rfl rfl rfl rfl
  refine Act.after_lift (hcheck c.status fun _ hs h => h hs) fun accepted ha => ?_
  cases accepted with
  | false => exact hcheck c.status fun _ hs h => h hs
  | true =>
    refine hcheck (some .finalized) fun hagrees _ _ => ?_
    obtain ⟨equal, hequal, h⟩ := bind_eq_ok.mp ha
    cases equal with
    | true => exact isFinalized_iff.mp ((hagrees true hequal).mp rfl)
    | false => exact isFinalized_iff.mp h

theorem sign_keeps (terms : Option Terms) (k : EthereumKey) (answer : Option EthereumSignature)
    (c : BlockChainContract) : Keeps c (Act.exec (sign terms k answer) c).2 := by
  have hsigning : Keeps c { c with status := some .signing } :=
    Keeps.of_final rfl fun _ h => absurd h (by simp)
  rw [sign, Act.exec_modify_bind]
  cases transact terms answer with
  | none => exact hsigning
  | some s =>
    refine Keeps.trans _ _ _ hsigning ?_
    refine Act.keeps_bind Keeps.trans (addSignature_keeps (some k) s _) fun _ _ => ?_
    exact Keeps.refl _

end BlockChainContract

/-! ### The establisher -/

namespace Establisher

open BlockChainContract (Keeps)

variable {P : Platform}

/-- Everything that is done to the contract is done by its own methods. -/
theorem kept_contract : Kept P fun e e' => Keeps e.contract e'.contract where
  refl e := Keeps.refl e.contract
  trans e e' e'' := Keeps.trans e.contract e'.contract e''.contract
  addSignature e k s := BlockChainContract.addSignature_keeps k s e.contract
  checkContrat e c := BlockChainContract.checkContrat_keeps c e.contract
  sign e terms k answer := BlockChainContract.sign_keeps terms k answer e.contract
  sends e _ _ := Keeps.refl e.contract
  address e _ := Keeps.refl e.contract
  shared e := Keeps.refl e.contract

/-- The status is behind the signatures in every state of the run, and every contract that is
checked is accepted exactly when it is equal and final. -/
def FinalWhenSigned (P : Platform) (e : Establisher) (is : List Input) : Prop :=
  (∀ pre, pre <+: is → ((machine P).run e pre).contract.Final) ∧
    ∀ check ∈ ((machine P).run e is).contract.checks, check.Exact

/-- **When final means signed**: when it does at the start, and every contract that is checked is
equal if and only if everyone has signed. -/
theorem final_iff (e : Establisher) (is : List Input) (h : e.contract.checks = []) :
    FinalWhenSigned P e is ↔
      e.contract.Final ∧ ∀ check ∈ ((machine P).run e is).contract.checks, check.Agrees := by
  have hformed : ∀ check ∈ ((machine P).run e is).contract.checks, check.Formed := by
    obtain ⟨new, hnew, hformed, -⟩ := (kept_contract (P := P)).run e is
    rwa [hnew, h, List.nil_append]
  constructor
  · rintro ⟨hfinal, hexact⟩
    refine ⟨hfinal [] (List.nil_prefix), fun check hc => ?_⟩
    exact (hformed check hc).exact_iff.mp (hexact check hc)
  · rintro ⟨hstart, hagrees⟩
    refine ⟨fun pre hpre => ?_, fun check hc => (hformed check hc).exact_iff.mpr (hagrees check hc)⟩
    obtain ⟨rest, rfl⟩ := hpre
    obtain ⟨new, hnew, -, hfinal⟩ := (kept_contract (P := P)).run e pre
    refine hfinal (fun check hc => hagrees check ?_) hstart
    -- the checks of the first part are among those of the run
    obtain ⟨new', hnew', -, -⟩ := (kept_contract (P := P)).run ((machine P).run e pre) rest
    rw [(machine P).run_append, hnew', hnew]
    exact List.mem_append_left _ (List.mem_append_right _ hc)

/-! ### One signature -/

def sampleEstablisher : Establisher :=
  initialized (sampleKey 0 10 171 "ab") sampleContract none "source"

def sampleSignature : Message where
  title := "title"
  who := "Private key : \n0xa\n\nPrivate public : \n0xab"
  sourceId := "Private key : \n0xc\n\nPrivate public : \n0xcd"
  contract := "3dCBzIGIgciBnIGM="

/-- **One signature is enough**: the message of one party makes the contract final for the other
one, which has not signed. -/
theorem final_unsigned : sampleEstablisher.contract.status = some .nowhere ∧
    ¬ FinalWhenSigned samplePlatform sampleEstablisher [.notify sampleSignature] := by
  refine ⟨rfl, fun h => ?_⟩
  have hfinal := h.1 _ List.prefix_rfl (by decide +kernel)
  exact absurd (BlockChainContract.isFinalized_iff.mpr hfinal) (by decide +kernel)

/-- The first party signs and checks the contract against its own copy, the message of the second
one arrives, and the contract is checked against nothing. -/
def sampleInputs : List Input :=
  [.addSignature (some (sampleKey 0 10 171 "ab")) (.ofReceipt
      ⟨some "0x5a", some "0x1f", some "0xb7", some "0xc4", some "0x5208", none⟩),
    .checkContrat (some sampleContract), .notify sampleSignature, .checkContrat none]

theorem final_iff_sample : sampleEstablisher.contract.checks = [] ∧
    ((machine samplePlatform).run sampleEstablisher sampleInputs).contract.checks.length = 3 ∧
    (FinalWhenSigned samplePlatform sampleEstablisher sampleInputs ↔
      sampleEstablisher.contract.Final ∧
        ∀ check ∈ ((machine samplePlatform).run sampleEstablisher sampleInputs).contract.checks,
          check.Agrees) :=
  ⟨rfl, by decide +kernel, final_iff sampleEstablisher sampleInputs rfl⟩

end Establisher

end SXP.BlockChain
