import SXP.Sigma.Trent

/-!
# What the signed bytes say

The data of a contract are the sum of the keys of its parties and then its
clauses, one after the other; a promise is made on the data followed by a
round.  The same bytes tell contracts apart when two are compared and when Trent
looks for the solver of a request.

`signedData_binds_iff` says for which two contracts and rounds equal bytes mean
equal contracts, and that no contract is the only one with its bytes: clauses can
be grouped in another way, what one key has more another can have less, and a
round can be the end of a clause.
-/

namespace SXP.Sigma

open SXP.Lib SXP.Lib.Text

namespace SigmaContract

/-- The bytes of a signature or of a promise: the data alone, or followed by a round. -/
def signedData (c : SigmaContract) : Option ℤ → List UInt8
  | none => c.clearData
  | some round => c.roundData round

/-- The arrays are compared, nothing else. -/
def equals (c c' : SigmaContract) : Bool := c.getHashableData == c'.getHashableData

/-- The same parties, in whatever order, and the same clauses. -/
structure SameAs (c c' : SigmaContract) : Prop where
  parties : (c.parties.map ElGamalKey.getPublicKeys).Perm (c'.parties.map ElGamalKey.getPublicKeys)
  clauses : c.clauses = c'.clauses

def keySum (c : SigmaContract) : ℤ := (c.parties.map ElGamalKey.publicKey).sum

def texts (c : SigmaContract) (r : Option ℤ) : List String :=
  decimal c.keySum :: c.clauses ++ [(r.map decimal).getD ""]

/-- The texts are different; or they are cut at the same places, and no two sets of parties
have the sum. -/
def Apart (c : SigmaContract) (r : Option ℤ) (c' : SigmaContract) (r' : Option ℤ) : Prop :=
  String.join (c.texts r) ≠ String.join (c'.texts r') ∨
  ((c.texts r).map String.length = (c'.texts r').map String.length ∧
    (c.keySum = c'.keySum →
      (c.parties.map ElGamalKey.getPublicKeys).Perm (c'.parties.map ElGamalKey.getPublicKeys)))

theorem join_texts (c : SigmaContract) (r : Option ℤ) : String.join (c.texts r) =
    decimal c.keySum ++ String.join c.clauses ++ (r.map decimal).getD "" := by
  simp [texts, String.join_cons, String.join_append, String.append_assoc]

theorem signedData_eq (c : SigmaContract) (r : Option ℤ) :
    c.signedData r = getBytes (String.join (c.texts r)) := by
  have hdata : newString c.getHashableData = decimal c.keySum ++ String.join c.clauses := by
    rw [getHashableData_eq, newString_getBytes, keySum]
  cases r with
  | none =>
    rw [signedData, clearData, hdata, join_texts, Option.map_none, Option.getD_none,
      String.append_empty]
  | some round =>
    rw [signedData, roundData, hdata, join_texts, Option.map_some, Option.getD_some]

theorem signedData_inj {c c' : SigmaContract} {r r' : Option ℤ} :
    c.signedData r = c'.signedData r' ↔
      String.join (c.texts r) = String.join (c'.texts r') := by
  rw [signedData_eq, signedData_eq, getBytes_injective.eq_iff]

theorem equals_iff {c c' : SigmaContract} :
    c.equals c' = true ↔ c.signedData none = c'.signedData none := by
  rw [equals, beq_iff_eq, signedData, signedData, clearData_eq, clearData_eq]

theorem SameAs.keySum {c c' : SigmaContract} (h : c.SameAs c') : c.keySum = c'.keySum := by
  have hsum : ∀ c : SigmaContract, c.keySum =
      ((c.parties.map ElGamalKey.getPublicKeys).map ElGamalKey.publicKey).sum :=
    fun c => by rw [List.map_map]; rfl
  rw [hsum, hsum]
  exact (h.parties.map _).sum_eq

theorem suffix_inj {r r' : Option ℤ} (h : (r.map decimal).getD "" = (r'.map decimal).getD "") :
    r = r' := by
  have hne : ∀ n : ℤ, decimal n ≠ "" := by
    intro n hn
    have hlist := congrArg String.toList hn
    rcases le_or_gt 0 n with h0 | h0
    · rw [decimal_toList h0] at hlist
      exact Nat.toDigits_ne_nil hlist
    · rw [decimal_toList_neg h0] at hlist
      exact absurd hlist (List.cons_ne_nil _ _)
  cases r with
  | none =>
    cases r' with
    | none => rfl
    | some n => exact absurd h.symm (hne n)
  | some n =>
    cases r' with
    | none => exact absurd h (hne n)
    | some m => exact congrArg some (decimal_injective h)

/-- **Equal bytes mean equal contracts** for exactly the pairs that are apart. -/
theorem binds_iff {c c' : SigmaContract} {r r' : Option ℤ} :
    (c.signedData r = c'.signedData r' → c.SameAs c' ∧ r = r') ↔ c.Apart r c' r' := by
  rw [signedData_inj]
  constructor
  · intro h
    refine or_iff_not_imp_left.mpr fun heq => ?_
    obtain ⟨hsame, rfl⟩ := h (not_not.mp heq)
    refine ⟨?_, fun _ => hsame.parties⟩
    rw [texts, texts, hsame.keySum, hsame.clauses]
  · rintro (hne | ⟨hlen, hparties⟩) heq
    · exact absurd heq hne
    · have htexts := (join_inj hlen).mp heq
      obtain ⟨hsum, hrest⟩ := List.cons.inj htexts
      obtain ⟨hclauses, hsuffix⟩ := List.append_inj' hrest rfl
      exact ⟨⟨hparties (decimal_injective hsum), hclauses⟩,
        suffix_inj (List.cons.inj hsuffix).1⟩

/-! ### Other contracts with the same bytes -/

theorem exists_clauses (c : SigmaContract) (r : Option ℤ) :
    ∃ c' : SigmaContract, c'.parties = c.parties ∧ c'.clauses ≠ c.clauses ∧
      c'.signedData r = c.signedData r := by
  refine ⟨{ c with clauses := c.clauses ++ [""] }, rfl, ?_, ?_⟩
  · intro h
    exact absurd (congrArg List.length h) (by simp)
  · rw [signedData_inj, join_texts, join_texts]
    simp [String.join_append, String.join_cons, keySum]

theorem exists_round (c : SigmaContract) (round : ℤ) :
    ∃ c' : SigmaContract, c'.parties = c.parties ∧
      c'.signedData none = c.signedData (some round) := by
  refine ⟨{ c with clauses := c.clauses ++ [decimal round] }, rfl, ?_⟩
  rw [signedData_inj, join_texts, join_texts]
  simp [String.join_append, String.join_cons, String.append_assoc, keySum]

theorem exists_parties (c : SigmaContract) (r : Option ℤ) (hN : 2 ≤ c.parties.length) :
    ∃ c' : SigmaContract, c'.clauses = c.clauses ∧ c'.parties.length = c.parties.length ∧
      ¬ c'.SameAs c ∧ c'.signedData r = c.signedData r := by
  obtain ⟨k₁, k₂, rest, hparties⟩ : ∃ k₁ k₂ rest, c.parties = k₁ :: k₂ :: rest := by
    rcases hp : c.parties with _ | ⟨k₁, _ | ⟨k₂, rest⟩⟩
    · rw [hp] at hN
      exact absurd hN (by simp)
    · rw [hp] at hN
      exact absurd hN (by simp)
    · exact ⟨k₁, k₂, rest, rfl⟩
  -- more than the distance of the two keys, so that they cannot have changed places
  obtain ⟨d, hd0, hd⟩ : ∃ d : ℤ, d ≠ 0 ∧ d ≠ k₂.publicKey - k₁.publicKey :=
    ⟨|k₂.publicKey - k₁.publicKey| + 1, by positivity,
      fun h => absurd (le_abs_self (k₂.publicKey - k₁.publicKey)) (by omega)⟩
  refine ⟨{ c with parties := { k₁ with publicKey := k₁.publicKey + d } ::
    { k₂ with publicKey := k₂.publicKey - d } :: rest }, rfl, ?_, ?_, ?_⟩
  · rw [hparties]
    rfl
  · intro hsame
    have hperm := hsame.parties
    rw [hparties] at hperm
    simp only [List.map_cons] at hperm
    have hpair : [ElGamalKey.getPublicKeys { k₁ with publicKey := k₁.publicKey + d },
        ElGamalKey.getPublicKeys { k₂ with publicKey := k₂.publicKey - d }].Perm
        [k₁.getPublicKeys, k₂.getPublicKeys] :=
      (List.perm_append_right_iff (rest.map ElGamalKey.getPublicKeys)).mp hperm
    have hmem := hpair.subset List.mem_cons_self
    simp only [List.mem_cons, List.not_mem_nil, or_false] at hmem
    rcases hmem with h | h
    · have hkey := congrArg ElGamalKey.publicKey h
      simp only [ElGamalKey.getPublicKeys] at hkey
      omega
    · have hkey := congrArg ElGamalKey.publicKey h
      simp only [ElGamalKey.getPublicKeys] at hkey
      omega
  · rw [signedData_inj, texts, texts, keySum, keySum, hparties]
    simp only [List.map_cons, List.sum_cons]
    rw [show k₁.publicKey + d + (k₂.publicKey - d + (rest.map ElGamalKey.publicKey).sum)
      = k₁.publicKey + (k₂.publicKey + (rest.map ElGamalKey.publicKey).sum) by ring]

end SigmaContract

/-- The solver that one request leaves behind is the one that another, which had none, finds. -/
def TrentService.Shares (T : TrentService) (request request' : Request) : Prop :=
  ∃ (solvers : Solvers) (senderK : ElGamalKey) (d : TrentDraws),
    solvers (newString request'.contract.getHashableData) = none ∧
    ((T.solve solvers request senderK d).2
      (newString request'.contract.getHashableData)).isSome = true

theorem TrentService.shares_iff {T : TrentService} {request request' : Request} :
    T.Shares request request' ↔
      request.contract.signedData none = request'.contract.signedData none := by
  rw [SigmaContract.signedData, SigmaContract.signedData, SigmaContract.clearData,
    SigmaContract.clearData, getBytes_injective.eq_iff]
  constructor
  · rintro ⟨solvers, senderK, d, hnone, hsome⟩
    by_contra hne
    have hsame : (T.solve solvers request senderK d).2
        (newString request'.contract.getHashableData) = none := by
      simp only [TrentService.solve, if_neg (Ne.symm hne), hnone]
    rw [hsame] at hsome
    exact absurd hsome (by decide)
  · intro heq
    refine ⟨fun _ => none, T.keys, ⟨0, "", id, fun _ => (0, 0, ⟨0, 0, 0, 0, 0, 0⟩)⟩, rfl, ?_⟩
    rw [TrentService.solve]
    simp only [heq, if_true, Option.isSome_some]

/-- **The bytes bind contract and round** for exactly the pairs that are apart; the same pairs
are told apart when contracts are compared, and when Trent looks for a solver.  There
is no contract that is bound to all others: some other has its bytes. -/
theorem signedData_binds_iff (T : TrentService) (c : SigmaContract) :
    (∀ (c' : SigmaContract) (r r' : Option ℤ),
      (c.signedData r = c'.signedData r' → c.SameAs c' ∧ r = r') ↔ c.Apart r c' r') ∧
    (∀ c' : SigmaContract, (c.equals c' = true → c.SameAs c') ↔ c.Apart none c' none) ∧
    (∀ request request' : Request,
      (T.Shares request request' → request.contract.SameAs request'.contract) ↔
        request.contract.Apart none request'.contract none) ∧
    (∀ r, ∃ c' : SigmaContract, c'.parties = c.parties ∧ c'.clauses ≠ c.clauses ∧
      c'.signedData r = c.signedData r) ∧
    (∀ round : ℤ, ∃ c' : SigmaContract, c'.parties = c.parties ∧
      c'.signedData none = c.signedData (some round)) ∧
    ∀ r, 2 ≤ c.parties.length → ∃ c' : SigmaContract, c'.clauses = c.clauses ∧
      c'.parties.length = c.parties.length ∧ ¬ c'.SameAs c ∧
      c'.signedData r = c.signedData r := by
  have hclear : ∀ c c' : SigmaContract, (c.signedData none = c'.signedData none → c.SameAs c') ↔
      c.Apart none c' none := by
    intro c c'
    rw [← SigmaContract.binds_iff]
    exact forall_congr' fun _ => (and_iff_left rfl).symm
  refine ⟨fun _ _ _ => SigmaContract.binds_iff, fun c' => ?_, fun request request' => ?_,
    c.exists_clauses, c.exists_round, c.exists_parties⟩
  · rw [SigmaContract.equals_iff, hclear]
  · rw [TrentService.shares_iff, hclear]

/-! ### Two contracts with one text -/

def sampleSplit : SigmaContract :=
  { SigmaContract.sampleContract with clauses := ["cla", "use"] }

def sampleNumbered : SigmaContract := { SigmaContract.sampleContract with clauses := ["clause1"] }

/-- One clause or two, a round or the end of a clause. -/
theorem bytes_not_bound :
    (SigmaContract.sampleContract.signedData none = sampleSplit.signedData none ∧
      SigmaContract.sampleContract.equals sampleSplit = true ∧
      TrentService.sampleTrent.Shares ⟨0, SigmaContract.sampleContract, "ABORT", none⟩
        ⟨0, sampleSplit, "ABORT", none⟩ ∧
      ¬ SigmaContract.sampleContract.SameAs sampleSplit) ∧
    (SigmaContract.sampleContract.signedData (some 1) = sampleNumbered.signedData none ∧
      ¬ SigmaContract.sampleContract.SameAs sampleNumbered) := by
  have hsplit : SigmaContract.sampleContract.signedData none = sampleSplit.signedData none := by
    rw [SigmaContract.signedData_inj, SigmaContract.join_texts, SigmaContract.join_texts]
    rfl
  have hnumbered : SigmaContract.sampleContract.signedData (some 1) =
      sampleNumbered.signedData none := by
    rw [SigmaContract.signedData_inj, SigmaContract.join_texts, SigmaContract.join_texts]
    rw [Option.map_none, Option.getD_none, String.append_empty, String.append_assoc]
    rfl
  refine ⟨⟨hsplit, SigmaContract.equals_iff.mpr hsplit, TrentService.shares_iff.mpr hsplit, ?_⟩,
    hnumbered, ?_⟩
  · intro h
    exact absurd h.clauses (by decide)
  · intro h
    exact absurd h.clauses (by decide)

end SXP.Sigma
