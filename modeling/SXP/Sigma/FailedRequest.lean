import SXP.Sigma.Opening

/-!
# What a request that fails leaves behind

A call of the solver that throws has written nothing, with one exception: the
flag is set before the promises are opened, and the loop that opens them reads
as many promises as the contract has parties.  The checks of Trent look at every
promise of the claim and do not count them.

`failed_request_iff` names the calls after which the solver is another one.
-/

namespace SXP.Sigma

open SXP.Lib SXP.Lib.Java SXP.Lib.BigInteger SXP.Lib.Text TrentSolver

namespace TrentService

variable {T : TrentService} {request : Request} {senderK : ElGamalKey}

/-- The call of `resolveT` for a request. -/
def call (request : Request) (senderK : ElGamalKey) (d : TrentDraws) : Call :=
  ⟨request.m, request.round, ⟨d.ref, decimal senderK.publicKey⟩, d.name, d.s⟩

/-- The first claim brings fewer promises than the contract has parties. -/
structure Short (T : TrentService) (contract : SigmaContract) (st : TrentSolver)
    (request : Request) : Prop where
  optimistic : st.optimistic = true
  first : st.possiblyHonestClaims = []
  round : request.round = 1
  claim : ∃ orT, T.toOrs request.m = some orT ∧ orT.length < contract.parties.length

/-! ### Opening the promises of a claim that passes -/

theorem openPromise_passes {contract : SigmaContract} {orT : List (Option OrClause)} {k : ℕ}
    {o : OrClause} (ho : orT[k]? = some (some o)) {s : ℤ} (h : T.verifiesRes o s = .ok true)
    (name : String) (draws : ℕ → ℕ) :
    ∃ sign, openPromise (T.arbiter contract) (some orT) name draws k = .ok sign := by
  obtain ⟨hreadable, hopens⟩ := verifiesResLoop_iff.mp h
  obtain ⟨and, hand, -⟩ := hopens.resolve_left (by decide)
  -- some clause was decrypted, so there is a private key and a modulus
  obtain ⟨-, plain, -, hplain⟩ := hreadable and hand
  obtain ⟨x, hx, hplain⟩ := bind_eq_ok.mp hplain
  obtain ⟨power, -, hplain⟩ := bind_eq_ok.mp hplain
  have hp : 0 < T.keys.p := by
    by_contra hle
    rw [mod, if_pos (not_lt.mp hle)] at hplain
    exact absurd hplain (by simp)
  obtain ⟨and0, rest, hands⟩ := List.exists_cons_of_ne_nil (List.ne_nil_of_mem hand)
  have hkey : T.keys.privateKey ≠ none :=
    Option.ne_none_iff_exists'.mpr ⟨x, nonNull_eq_ok.mp hx⟩
  obtain ⟨r, hr⟩ := sendResponse_total T.hash hp hkey and0.resEncrypt name (draws k)
  refine ⟨⟨o, r, T.keys.getPublicKeys⟩, ?_⟩
  rw [openPromise, nonNull_some, ok_bind, ho]
  dsimp only [arbiter]
  rw [nonNull_some, ok_bind, hands, first_cons, ok_bind, hr, ok_bind, pure_eq]

/-- **The token of a claim that passes** is made when the claim has a promise for each party. -/
theorem resolveToken_iff (h : T.checks request senderK = .ok true) (hr : 0 < request.round)
    {orT : List (Option OrClause)} (horT : T.toOrs request.m = some orT) (contract : SigmaContract)
    (d : TrentDraws) :
    (∃ token, resolveToken (T.arbiter contract) (call request senderK d) = .ok token) ↔
      contract.parties.length ≤ orT.length := by
  obtain ⟨orT', horT', hall⟩ := (checks_iff.mp h).claim hr
  obtain rfl : orT = orT' := Option.some.inj (horT.symm.trans horT')
  have hread : (T.arbiter contract).toOrs (call request senderK d).m = some orT := horT
  constructor
  · rintro ⟨token, htoken⟩
    by_contra hlt
    rw [resolveToken, hread] at htoken
    have hmem : orT.length ∈ List.range (T.arbiter contract).contract.parties.length :=
      List.mem_range.mpr (not_le.mp hlt)
    obtain ⟨sign, hsign⟩ := exists_of_collect htoken hmem
    rw [openPromise, nonNull_some, ok_bind, List.getElem?_eq_none (le_refl _)] at hsign
    exact absurd hsign (by simp)
  · intro hle
    refine collect_total ?_
    intro k hk
    have hk' : k < orT.length := lt_of_lt_of_le (List.mem_range.mp hk) hle
    obtain ⟨o, ho, -, hverifies⟩ := hall orT[k] (List.getElem_mem hk')
    rw [hread]
    exact openPromise_passes (by rw [List.getElem?_eq_getElem hk', ho]) hverifies _ _

theorem short_outcome (h : T.checks request senderK = .ok true) {contract : SigmaContract}
    {st : TrentSolver} (hshort : T.Short contract st request) (d : TrentDraws) :
    (∃ e, (machine (T.arbiter contract)).out st (call request senderK d) = .error e) ∧
      (machine (T.arbiter contract)).next st (call request senderK d)
        = { st with optimistic := false } := by
  obtain ⟨orT, horT, hlt⟩ := hshort.claim
  have hround : (call request senderK d).round = 1 := hshort.round
  obtain ⟨hout, hnext⟩ := resolveT_opening (T.arbiter contract) st hshort.first hround.le
    (Or.inl (by rw [hround]; exact Int.one_pos))
  refine ⟨?_, hnext⟩
  rw [hout]
  rcases htoken : resolveToken (T.arbiter contract) (call request senderK d) with e | token
  · exact ⟨e, rfl⟩
  · have hle := (resolveToken_iff h (by rw [hshort.round]; exact Int.one_pos) horT contract d).mp
      ⟨token, htoken⟩
    exact absurd hle (not_le.mpr hlt)

/-- **A call that throws leaves the solver as it was**, except when the first claim is short
of promises; after that nobody is answered with an abort. -/
theorem failed_request_iff (T : TrentService) (contract : SigmaContract) (st : TrentSolver)
    {request : Request} {senderK : ElGamalKey} (d : TrentDraws)
    (h : T.checks request senderK = .ok true) :
    (((∃ e, (machine (T.arbiter contract)).out st (call request senderK d) = .error e) →
        (machine (T.arbiter contract)).next st (call request senderK d) = st) ↔
      ¬ T.Short contract st request) ∧
    (T.Short contract st request → ∀ (calls : List Call) (c : Call),
      ¬ Aborted ((machine (T.arbiter contract)).out ((machine (T.arbiter contract)).run
        ((machine (T.arbiter contract)).next st (call request senderK d)) calls) c)) := by
  refine ⟨⟨?_, ?_⟩, ?_⟩
  · intro hunchanged hshort
    obtain ⟨herror, hnext⟩ := short_outcome h hshort d
    have hflag := congrArg TrentSolver.optimistic (hnext.symm.trans (hunchanged herror))
    rw [hshort.optimistic] at hflag
    exact absurd hflag Bool.false_ne_true
  · rintro hshort ⟨e, he⟩
    have hx := exit (T.arbiter contract) st (call request senderK d)
    rw [he] at hx
    generalize (machine (T.arbiter contract)).next st (call request senderK d) = st' at hx ⊢
    generalize ho : (Except.error e : Java (Option Answer)) = o at hx
    cases hx with
    | beyond e h => rfl
    | outside h h' h'' ho hr => rfl
    | opened hloop hopens =>
      by_cases hopt : st.optimistic = false
      · obtain ⟨_, claims, dishonest⟩ := st
        obtain rfl : _ = false := hopt
        rfl
      · -- the list is empty, so that the first loop has let pass no round above the first
        obtain ⟨hnil, hr⟩ := hopens.resolve_right hopt
        have hr : 0 < request.round := hr
        have hround : request.round = 1 := by
          by_contra hne
          obtain ⟨m, hm, -⟩ := accuses_eq_none.mp hloop 0 (le_refl 0)
            (by show 0 < 0 + (request.round - 1).toNat; omega)
          rw [hnil] at hm
          exact absurd hm (by simp)
        obtain ⟨orT, horT, -⟩ := (checks_iff.mp h).claim hr
        have hlt : orT.length < contract.parties.length := by
          by_contra hle
          obtain ⟨token, htoken⟩ :=
            (resolveToken_iff h hr horT contract d).mpr (not_lt.mp hle)
          rw [htoken] at ho
          exact absurd ho (by simp [Except.map])
        exact absurd ⟨Bool.not_eq_false _ ▸ hopt, hnil, hround, orT, horT, hlt⟩ hshort
    | _ => exact absurd ho (by simp)
  · intro hshort calls c hab
    obtain ⟨-, hnext⟩ := short_outcome h hshort d
    have hsettled : ({ st with optimistic := false } : TrentSolver).Settled := fun _ => hshort.first
    have hopen := (run_opening (T.arbiter contract) rfl hsettled calls).1
    rw [hnext] at hab
    rw [(aborted_cases hab).1] at hopen
    exact absurd hopen (by decide)

/-! ### An empty claim -/

def sampleDraws : TrentDraws :=
  ⟨0, "[B@1b6d3586", fun k => k + 1, fun _ => (7, 8, ⟨1, 2, 3, 4, 5, 6⟩)⟩

theorem sampleTrent_empty : sampleTrent.toOrs "[]" = some [] := by
  show (if "[]" = "[]" then some [] else none) = some []
  exact if_pos rfl

theorem sampleEmpty_checks : ∃ sign,
    SigmaSigner.sign sha256 ⟨some (sampleKey 1002).getPublicKeys,
      some (sampleKey 1002).getPublicKeys⟩ (sampleKey 1000) (getBytes "[]") 7 8
      ⟨1, 2, 3, 4, 5, 6⟩ = .ok sign ∧
    sampleTrent.checks ⟨1, SigmaContract.sampleContract, "[]", some sign⟩
      (sampleTrent.senderKey (sampleKey 1000).publicKey) = .ok true := by
  obtain ⟨sign, hsign, hacc⟩ := sign_accepted sha256
    (sampleKey_registered (x := 1000) 1002 (by decide +kernel)) (sampleKey_owned 1000)
    (sampleKey_valid 1002) (getBytes "[]") 7 8 ⟨1, 2, 3, 4, 5, 6⟩
  refine ⟨sign, hsign, checks_iff.mpr ⟨fun _ => ⟨[], sampleTrent_empty, by simp⟩, sign, rfl, ?_⟩⟩
  refine hacc _ ⟨?_, ?_⟩ <;> rintro r ⟨⟩ <;> rfl

theorem sampleEmpty_short (sign : SigmaSignature) :
    sampleTrent.Short SigmaContract.sampleContract TrentSolver.initial
      ⟨1, SigmaContract.sampleContract, "[]", some sign⟩ :=
  ⟨rfl, rfl, rfl, [], sampleTrent_empty, by decide⟩

/-- Nothing is answered, and the solver opens promises from then on. -/
theorem empty_claim_flips : ∃ sign,
    sampleTrent.checks ⟨1, SigmaContract.sampleContract, "[]", some sign⟩
      (sampleTrent.senderKey (sampleKey 1000).publicKey) = .ok true ∧
    (∃ e, (machine (sampleTrent.arbiter SigmaContract.sampleContract)).out TrentSolver.initial
      (call ⟨1, SigmaContract.sampleContract, "[]", some sign⟩
        (sampleTrent.senderKey (sampleKey 1000).publicKey) sampleDraws) = .error e) ∧
    TrentSolver.initial.optimistic = true ∧
    ((machine (sampleTrent.arbiter SigmaContract.sampleContract)).next TrentSolver.initial
      (call ⟨1, SigmaContract.sampleContract, "[]", some sign⟩
        (sampleTrent.senderKey (sampleKey 1000).publicKey) sampleDraws)).optimistic = false := by
  obtain ⟨sign, -, hchecks⟩ := sampleEmpty_checks
  obtain ⟨herror, hnext⟩ := short_outcome hchecks (sampleEmpty_short sign) sampleDraws
  refine ⟨sign, hchecks, herror, rfl, ?_⟩
  rw [hnext]

theorem failed_request_sample : ∃ sign, ∀ (calls : List Call) (c : Call),
    ¬ Aborted ((machine (sampleTrent.arbiter SigmaContract.sampleContract)).out
      ((machine (sampleTrent.arbiter SigmaContract.sampleContract)).run
        ((machine (sampleTrent.arbiter SigmaContract.sampleContract)).next TrentSolver.initial
          (call ⟨1, SigmaContract.sampleContract, "[]", some sign⟩
            (sampleTrent.senderKey (sampleKey 1000).publicKey) sampleDraws)) calls) c) := by
  obtain ⟨sign, -, hchecks⟩ := sampleEmpty_checks
  exact ⟨sign, (failed_request_iff sampleTrent SigmaContract.sampleContract TrentSolver.initial
    sampleDraws hchecks).2 (sampleEmpty_short sign)⟩

end TrentService

end SXP.Sigma
