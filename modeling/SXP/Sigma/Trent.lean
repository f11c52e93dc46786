import SXP.Sigma.Verdicts

/-!
# Trent

Trent reads a request, checks it and hands it to the solver of the contract the
request names.  What reading a request gives is an argument here: it throws, it
gives nothing, or it gives a round, a contract, the decrypted message and the
decrypted signature of the message.

The checks concern the promises in the message and the signature under the
sender's key.  Neither the sender nor the makers of the promises are compared
with the parties of the contract, so `resolve_authentic_iff` needs a condition on
the request that the checks do not imply.
-/

namespace SXP.Sigma

open SXP.Lib SXP.Lib.Java SXP.Lib.BigInteger SXP.Lib.Text

structure Request where
  round : ℤ
  contract : SigmaContract
  m : String
  signature : Option SigmaSignature

/-- Trent's keys, the reading of a message as an array of promises and the writing
of an answer. -/
structure TrentService where
  hash : List UInt8 → Digest
  keys : ElGamalKey
  toOrs : String → Option (List (Option OrClause))
  json : Answer → String

/-- What is drawn for one request: the outcome of the solver's draws, and for each
party what its signature on the answer takes. -/
structure TrentDraws where
  ref : ℕ
  name : String
  s : ℕ → ℕ
  sign : ℕ → ℤ × ℤ × PCS.Draws

inductive TrentMessage where
  | dishonest (sender : ℤ)
  | answer (a : Answer) (text : String) (signatures : List (ℤ × SigmaSignature))

namespace TrentService

/-- The solvers, by the data of their contract. -/
abbrev Solvers : Type := String → Option (SigmaContract × TrentSolver)

def decryption (T : TrentService) (res : ResEncrypt) : Java ℤ := do
  let x ← nonNull T.keys.privateKey
  let power ← modPow res.u (T.keys.p - 1 - x) T.keys.p
  mod (power * res.v) T.keys.p

/-- Every clause is looked at, and one of them has to open to the identity of its
first key. -/
def verifiesResLoop (T : TrentService) : Bool → List AndClause → Java Bool
  | isVerified, [] => pure isVerified
  | isVerified, a :: as => do
      let response ← first a.responses
      let key ← nonNull (a.rK.get response)
      let data ← getIdentificationData key
      let k ← ofBytes data
      let h ← T.decryption a.resEncrypt
      verifiesResLoop T (isVerified || h == k) as

/-- The sender is a parameter that no line reads. -/
def verifiesRes (T : TrentService) (o : OrClause) (_senPubK : ℤ) : Java Bool :=
  T.verifiesResLoop false o.ands

/-- The test of the whole claim: it stops at the first promise that fails. -/
def verifiesClaim (T : TrentService) (data : List UInt8) (senPubK : ℤ) :
    List (Option OrClause) → Java Bool :=
  Java.all fun o => do
    let o ← nonNull o
    andThen (o.verifies T.hash data) (T.verifiesRes o senPubK)

def signer (T : TrentService) (senderK : ElGamalKey) : SigmaSigner := ⟨some T.keys, some senderK⟩

/-- An abort, which has no round, brings no claim. -/
def verifiedOr (T : TrentService) (request : Request) (senderK : ElGamalKey) : Java Bool :=
  if 0 < request.round then do
    let orT ← nonNull (T.toOrs request.m)
    T.verifiesClaim (request.contract.roundData request.round) senderK.publicKey orT
  else pure true

def checks (T : TrentService) (request : Request) (senderK : ElGamalKey) : Java Bool := do
  let verifiedOr ← T.verifiedOr request senderK
  let signature ← nonNull request.signature
  andThen ((T.signer senderK).verify T.hash (getBytes request.m) signature) (pure verifiedOr)

/-- The key a sender id stands for. -/
def senderKey (T : TrentService) (senderId : ℤ) : ElGamalKey :=
  ⟨senderId, T.keys.p, T.keys.g, none⟩

def arbiter (T : TrentService) (contract : SigmaContract) : Arbiter :=
  ⟨T.hash, contract, T.keys, T.toOrs⟩

def solve (T : TrentService) (solvers : Solvers) (request : Request) (senderK : ElGamalKey)
    (d : TrentDraws) : Java (Option Answer) × Solvers :=
  let id := newString request.contract.getHashableData
  let (contract, solver) := (solvers id).getD (request.contract, TrentSolver.initial)
  let call : Call := ⟨request.m, request.round, ⟨d.ref, decimal senderK.publicKey⟩, d.name, d.s⟩
  let (answer, solver') := TrentSolver.resolveT (T.arbiter contract) solver call
  (answer, fun id' => if id' = id then some (contract, solver') else solvers id')

/-- The signatures on the answer, one for each party to read. -/
def signAnswer (T : TrentService) (contract : SigmaContract) (text : String) (d : TrentDraws) :
    Java (List (ℤ × SigmaSignature)) :=
  Java.collect (fun ki : ElGamalKey × ℕ => do
    let (nonce, sCce, draws) := d.sign ki.2
    let sign ← SigmaSigner.sign T.hash ⟨some T.keys, some ki.1⟩ T.keys (getBytes text) nonce sCce
      draws
    return (ki.1.publicKey, sign)) contract.parties.zipIdx

/-- What Trent does with a message: whether the solver was called, what is sent, and
the solvers afterwards. -/
structure Reaction where
  called : Bool
  sent : Java (Option TrentMessage)
  solvers : Solvers

def resolve (T : TrentService) (solvers : Solvers) (message : Java (Option Request))
    (senderK : ElGamalKey) (d : TrentDraws) : Reaction :=
  match message with
  | .error e => ⟨false, .error e, solvers⟩
  | .ok none => ⟨false, .ok none, solvers⟩
  | .ok (some request) =>
      match T.checks request senderK with
      | .error e => ⟨false, .error e, solvers⟩
      | .ok false => ⟨false, .ok none, solvers⟩
      | .ok true =>
          let (answer, solvers') := T.solve solvers request senderK d
          let sent : Java (Option TrentMessage) := do
            match ← answer with
            | none => return some (.dishonest senderK.publicKey)
            | some a =>
                let text := T.json a
                let signatures ← T.signAnswer request.contract text d
                return some (.answer a text signatures)
          ⟨true, sent, solvers'⟩

/-! ### Authentic claims -/

def schnorrKey (and : AndClause) : Option ElGamalKey :=
  (and.responses.find? fun r => r.kind == .schnorr).bind and.rK.get

def MadeFor (o : OrClause) (maker receiver : ℤ) : Prop :=
  ∃ and and' rest, o.ands = and :: and' :: rest ∧
    (schnorrKey and).map ElGamalKey.publicKey = some maker ∧
    (schnorrKey and').map ElGamalKey.publicKey = some receiver

def Complete (orT : List (Option OrClause)) (parties : List ElGamalKey) (sender : ℤ) : Prop :=
  orT.length = parties.length ∧ ∀ (k : ℕ) (party : ElGamalKey), parties[k]? = some party →
    ∃ o, orT[k]? = some (some o) ∧ MadeFor o party.publicKey sender

/-- The sender is a party, and a claim is complete. -/
def Concerned (T : TrentService) (request : Request) (senderK : ElGamalKey) : Prop :=
  (∃ party ∈ request.contract.parties, party.publicKey = senderK.publicKey) ∧
  (0 < request.round → ∃ orT, T.toOrs request.m = some orT ∧
    Complete orT request.contract.parties senderK.publicKey)

/-- The sender is a party, and a claim is complete and verifies on the data followed
by the round. -/
def Authentic (T : TrentService) (request : Request) (senderK : ElGamalKey) : Prop :=
  (∃ party ∈ request.contract.parties, party.publicKey = senderK.publicKey) ∧
  (0 < request.round → ∃ orT, T.toOrs request.m = some orT ∧
    Complete orT request.contract.parties senderK.publicKey ∧
    ∀ o, some o ∈ orT →
      o.verifies T.hash (request.contract.roundData request.round) = .ok true)

theorem resolve_called {T : TrentService} {solvers : Solvers} {request : Request}
    {senderK : ElGamalKey} {d : TrentDraws} :
    (T.resolve solvers (.ok (some request)) senderK d).called = true ↔
      T.checks request senderK = .ok true := by
  rw [resolve]
  dsimp only
  rcases T.checks request senderK with e | _ | _ <;> simp

/-- What the checks ask for: every promise of a claim verifies and one of its clauses opens
to the identity of its first key, and the message is signed under the sender's identity. -/
structure Passes (T : TrentService) (request : Request) (senderK : ElGamalKey) : Prop where
  claim : 0 < request.round → ∃ orT, T.toOrs request.m = some orT ∧ ∀ o ∈ orT, ∃ o', o = some o' ∧
    o'.verifies T.hash (request.contract.roundData request.round) = .ok true ∧
    T.verifiesRes o' senderK.publicKey = .ok true
  signed : ∃ sign, request.signature = some sign ∧
    (T.signer senderK).verify T.hash (getBytes request.m) sign = .ok true

theorem verifiesClaim_iff {T : TrentService} {data : List UInt8} {senPubK : ℤ}
    {orT : List (Option OrClause)} : T.verifiesClaim data senPubK orT = .ok true ↔
      ∀ o ∈ orT, ∃ o', o = some o' ∧ o'.verifies T.hash data = .ok true ∧
        T.verifiesRes o' senPubK = .ok true := by
  rw [verifiesClaim, all_eq_true]
  refine forall₂_congr fun o _ => ?_
  simp only [bind_eq_ok, nonNull_eq_ok, andThen_eq_true]

theorem checks_iff {T : TrentService} {request : Request} {senderK : ElGamalKey} :
    T.checks request senderK = .ok true ↔ T.Passes request senderK := by
  have hclaim : T.verifiedOr request senderK = .ok true ↔
      (0 < request.round → ∃ orT, T.toOrs request.m = some orT ∧ ∀ o ∈ orT, ∃ o', o = some o' ∧
        o'.verifies T.hash (request.contract.roundData request.round) = .ok true ∧
        T.verifiesRes o' senderK.publicKey = .ok true) := by
    rw [verifiedOr]
    split
    · rename_i hr
      simp only [bind_eq_ok, nonNull_eq_ok, verifiesClaim_iff, hr, true_implies]
    · rename_i hr
      simp only [hr, pure_eq, false_implies]
  rw [checks]
  constructor
  · intro h
    obtain ⟨verifiedOr, hv, h⟩ := bind_eq_ok.mp h
    obtain ⟨sign, hsign, h⟩ := bind_eq_ok.mp h
    obtain ⟨hverify, hor⟩ := andThen_eq_true.mp h
    rw [Except.ok.inj hor] at hv
    exact ⟨hclaim.mp hv, sign, nonNull_eq_ok.mp hsign, hverify⟩
  · rintro ⟨h, sign, hsign, hverify⟩
    rw [hclaim.mpr h, ok_bind, hsign, nonNull_some, ok_bind, hverify, andThen_true, pure_eq]

/-- **What passes is authentic** when the sender is a party and the claim is complete. -/
theorem authentic_iff {T : TrentService} {request : Request} {senderK : ElGamalKey}
    (h : T.Passes request senderK) :
    T.Authentic request senderK ↔ T.Concerned request senderK := by
  unfold Authentic Concerned
  refine and_congr_right fun _ => forall_congr' fun hr => ?_
  obtain ⟨orT, horT, hall⟩ := h.claim hr
  refine exists_congr fun orT' => and_congr_right fun horT' => and_iff_left ?_
  intro o ho
  rw [horT, Option.some.injEq] at horT'
  obtain ⟨o', heq, hverifies, -⟩ := hall (some o) (horT' ▸ ho)
  rwa [Option.some.inj heq]

theorem resolve_unread {T : TrentService} {solvers : Solvers} {message : Java (Option Request)}
    {senderK : ElGamalKey} {d : TrentDraws} (h : ∀ request, message ≠ .ok (some request)) :
    (T.resolve solvers message senderK d).called = false ∧
      (T.resolve solvers message senderK d).solvers = solvers := by
  rcases message with e | _ | request
  · exact ⟨rfl, rfl⟩
  · exact ⟨rfl, rfl⟩
  · exact absurd rfl (h request)

/-- **Nobody is kept from it**: a key pair whose identity Trent can encrypt signs an empty
claim, for any contract. -/
theorem empty_claim_passes {T : TrentService} {k : ElGamalKey} (hk : Registered T.keys k)
    (ho : k.Owned) {contract : SigmaContract} (hN : contract.parties ≠ []) {m : String}
    (hm : T.toOrs m = some []) : ∃ request : Request, request.contract = contract ∧
      T.Passes request (T.senderKey k.publicKey) ∧
      ¬ T.Concerned request (T.senderKey k.publicKey) := by
  obtain ⟨sign, -, hacc⟩ := sign_accepted T.hash hk ho hk.trent (getBytes m) 0 0 ⟨0, 0, 0, 0, 0, 0⟩
  refine ⟨⟨1, contract, m, some sign⟩, rfl, ⟨fun _ => ⟨[], hm, by simp⟩, sign, rfl, ?_⟩, ?_⟩
  · refine hacc _ ⟨?_, ?_⟩ <;> rintro r ⟨⟩ <;> rfl
  · rintro ⟨-, h⟩
    obtain ⟨orT, horT, hlength, -⟩ := h Int.one_pos
    obtain rfl := Option.some.inj (hm.symm.trans horT)
    exact hN (List.length_eq_zero_iff.mp hlength.symm)

/-- **Trent acts on other claims than authentic complete ones** for every contract and for every
sender.  The messages for which he does not are those that are no request, that do not pass, or
whose sender is a party and whose claim has the promises of the parties to the sender in their
order. -/
theorem resolve_authentic_iff (T : TrentService) (solvers : Solvers) (d : TrentDraws) :
    (∀ (contract : SigmaContract) (k : ElGamalKey), contract.parties ≠ [] →
      Registered T.keys k → k.Owned → (∃ m, T.toOrs m = some []) →
      ∃ request : Request, request.contract = contract ∧
        (T.resolve solvers (.ok (some request)) (T.senderKey k.publicKey) d).called = true ∧
        ¬ T.Authentic request (T.senderKey k.publicKey)) ∧
    ∀ (message : Java (Option Request)) (senderK : ElGamalKey),
      ((T.resolve solvers message senderK d).called = true →
        ∃ request, message = .ok (some request) ∧ T.Authentic request senderK) ↔
      ∀ request, message = .ok (some request) →
        ¬ T.Passes request senderK ∨ T.Concerned request senderK := by
  refine ⟨?_, ?_⟩
  · rintro contract k hN hk ho ⟨m, hm⟩
    obtain ⟨request, hcontract, hpasses, hconcerned⟩ := empty_claim_passes hk ho hN hm
    exact ⟨request, hcontract, resolve_called.mpr (checks_iff.mpr hpasses),
      mt (authentic_iff hpasses).mp hconcerned⟩
  · intro message senderK
    constructor
    · rintro h request rfl
      rw [resolve_called, checks_iff] at h
      refine or_iff_not_imp_left.mpr fun hpasses => ?_
      obtain ⟨request', heq, ha⟩ := h (not_not.mp hpasses)
      obtain rfl := Option.some.inj (Except.ok.inj heq)
      exact (authentic_iff (not_not.mp hpasses)).mp ha
    · intro h hcalled
      by_cases hm : ∃ request, message = .ok (some request)
      · obtain ⟨request, rfl⟩ := hm
        have hpasses := checks_iff.mp (resolve_called.mp hcalled)
        refine ⟨request, rfl, (authentic_iff hpasses).mpr ?_⟩
        exact (h request rfl).resolve_left (not_not_intro hpasses)
      · rw [(resolve_unread fun request heq => hm ⟨request, heq⟩).1] at hcalled
        exact absurd hcalled (by decide)

/-- A request that no solver is called for leaves the solvers as they are. -/
theorem resolve_unchanged {T : TrentService} {solvers : Solvers} {message : Java (Option Request)}
    {senderK : ElGamalKey} {d : TrentDraws}
    (h : (T.resolve solvers message senderK d).called = false) :
    (T.resolve solvers message senderK d).solvers = solvers := by
  rcases message with e | _ | request
  · rfl
  · rfl
  · rw [resolve] at h ⊢
    dsimp only at h ⊢
    rcases hc : T.checks request senderK with e | _ | _
    · rfl
    · rfl
    · rw [hc] at h
      exact absurd h (by simp)

/-! ### A request of somebody else -/

def sampleTrent : TrentService where
  hash := sha256
  keys := sampleKey 1002
  toOrs := fun m => if m = "[]" then some [] else none
  json := fun _ => "answer"

theorem resolve_authentic_sample : ∃ request : Request,
    request.contract = SigmaContract.sampleContract ∧
    (sampleTrent.resolve (fun _ => none) (.ok (some request))
      (sampleTrent.senderKey (sampleKey 1000).publicKey)
      ⟨0, "[B@1b6d3586", fun k => k + 1, fun _ => (7, 8, ⟨1, 2, 3, 4, 5, 6⟩)⟩).called = true ∧
    ¬ sampleTrent.Authentic request (sampleTrent.senderKey (sampleKey 1000).publicKey) := by
  have hreg := sampleKey_registered (x := 1000) 1002 (by decide +kernel)
  have htrent : Registered sampleTrent.keys (sampleKey 1000) :=
    ⟨hreg.party, hreg.digits, ⟨hreg.trent.prime, hreg.trent.g_pos, hreg.trent.g_lt,
      hreg.trent.publicKey⟩, hreg.fits⟩
  exact (resolve_authentic_iff sampleTrent (fun _ => none) _).1 _ _ (List.cons_ne_nil _ _) htrent
    (sampleKey_owned 1000) ⟨"[]", show (if "[]" = "[]" then some [] else none) = _ from if_pos rfl⟩

/-- A third key aborts the contract of two parties. -/
theorem stranger_aborts : ∃ sign,
    SigmaSigner.sign sha256
      ⟨some (sampleKey 1002).getPublicKeys, some (sampleKey 1002).getPublicKeys⟩ (sampleKey 1003)
      (getBytes "ABORT") 7 8 ⟨1, 2, 3, 4, 5, 6⟩ = .ok sign ∧
    (sampleTrent.resolve (fun _ => none)
      (.ok (some ⟨0, SigmaContract.sampleContract, "ABORT", some sign⟩))
      (sampleTrent.senderKey (sampleKey 1003).publicKey)
      ⟨0, "[B@1b6d3586", fun k => k + 1, fun _ => (7, 8, ⟨1, 2, 3, 4, 5, 6⟩)⟩).called = true ∧
    ¬ sampleTrent.Authentic ⟨0, SigmaContract.sampleContract, "ABORT", some sign⟩
      (sampleTrent.senderKey (sampleKey 1003).publicKey) := by
  obtain ⟨sign, hsign, hacc⟩ := sign_accepted sha256
    (sampleKey_registered (x := 1003) 1002 (by decide +kernel)) (sampleKey_owned 1003)
    (sampleKey_valid 1002) (getBytes "ABORT") 7 8 ⟨1, 2, 3, 4, 5, 6⟩
  have hverify : (sampleTrent.signer (sampleTrent.senderKey (sampleKey 1003).publicKey)).verify
      sha256 (getBytes "ABORT") sign = .ok true := by
    refine hacc _ ⟨?_, ?_⟩ <;> rintro r ⟨⟩ <;> rfl
  refine ⟨sign, hsign, resolve_called.mpr ?_, ?_⟩
  · rw [checks, verifiedOr, if_neg (lt_irrefl (0 : ℤ)), pure_eq, ok_bind, nonNull_some, ok_bind]
    exact andThen_eq_true.mpr ⟨hverify, rfl⟩
  · rintro ⟨⟨party, hparty, hkey⟩, -⟩
    have hnone : ∀ party ∈ SigmaContract.sampleContract.parties,
        party.publicKey ≠ (sampleKey 1003).publicKey := by decide +kernel
    exact hnone party hparty hkey

end TrentService

end SXP.Sigma
