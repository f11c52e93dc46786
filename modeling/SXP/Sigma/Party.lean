import SXP.Lib.Act
import SXP.Lib.Machine
import SXP.Sigma.ClaimText
import SXP.Sigma.Contract

/-!
# A party of the protocol

A party has two listeners.  The one of `ProtocolSign` receives the promises and
signatures of the others, the one of `ProtocolResolve` the answers of Trent;
both read and write the contract and its status.  The signing step goes through
the rounds `1, …, N + 2`: it sends a promise to every party in the first
`N + 1` of them and a clear signature in the last.

What a receiver reads in a message is a computation here: the texts may be no
JSON, may lack a field or may not decrypt, and then the reading throws.  An
exception ends the call of the listener and leaves what was written before.
-/

namespace SXP.Sigma

open SXP.Lib SXP.Lib.Java SXP.Lib.Text

/-! ### Messages -/

/-- What a signing message has for one receiver. -/
inductive Payload where
  | promise (p : OrClause)
  | signature (s : SigmaSignature)

/-- A signing message as it is read: its round, and what the entry of a public key
decrypts and parses to. -/
structure SignMessage where
  round : Java ℤ
  promise : ℤ → Java (Option OrClause)
  signature : ℤ → Java (Option SigmaSignature)

/-- What a party sends: a signing message with the entries by public key, or a request
to Trent. -/
inductive Outgoing where
  | signing (round : ℤ) (content : List (ℤ × Payload))
  | request (round : ℤ) (text : String) (signature : SigmaSignature)

/-- `content.get(publicKey)`; the last entry that was put is the one that is there. -/
def entry (content : List (ℤ × Payload)) (publicKey : ℤ) : Option Payload :=
  (content.reverse.find? fun e => e.1 == publicKey).map Prod.snd

theorem entry_of_mem {content : List (ℤ × Payload)} {publicKey : ℤ} {Q : Payload → Prop}
    (hkey : ∃ e ∈ content, e.1 = publicKey) (h : ∀ e ∈ content, Q e.2) :
    ∃ payload, entry content publicKey = some payload ∧ Q payload := by
  obtain ⟨e, he, rfl⟩ := hkey
  unfold entry
  cases hf : content.reverse.find? fun e' => e'.1 == e.1 with
  | none =>
    have hno := List.find?_eq_none.mp hf e (List.mem_reverse.mpr he)
    exact absurd (beq_self_eq_true e.1) hno
  | some e' => exact ⟨e'.2, rfl, h e' (List.mem_reverse.mp (List.mem_of_find?_eq_some hf))⟩

/-- A message is read as it was written; an entry of the other kind parses to null. -/
def SignMessage.ofContent (round : ℤ) (content : List (ℤ × Payload)) : SignMessage where
  round := .ok round
  promise publicKey :=
    match entry content publicKey with
    | some (.promise p) => .ok (some p)
    | some (.signature _) => .ok none
    | none => .error .nullPointer
  signature publicKey :=
    match entry content publicKey with
    | some (.signature s) => .ok (some s)
    | some (.promise _) => .ok none
    | none => .error .nullPointer

/-- An answer of Trent as it is read: whether the text begins with the word
`dishonest`, the three fields of the answer, and the second of them as a list of
signatures. -/
structure TrentAnswer where
  dishonest : Java Bool
  kind : Java String
  text : Java String
  signature : ℤ → Java (Option SigmaSignature)
  sigSign : Option (List (Option SigmaSignature))

/-! ### State -/

/-- How far the establisher has come: it chooses Trent, it listens to Trent, the signing
step is created, the first message is on its way. -/
inductive Phase where
  | choosing
  | listening
  | created
  | running
deriving DecidableEq, Repr

structure Platform where
  hash : List UInt8 → Digest
  json : List (Option OrClause) → String

/-- The writer of promises that have lost the message they are about. -/
def samplePlatform : Platform := ⟨sha256, claimJson none⟩

abbrev SignDraws : Type := ℤ × ℤ × PCS.Draws

/-- What is drawn in one call: for every round and receiver, and for a request. -/
structure Draws where
  sign : ℤ → ℕ → SignDraws
  resolve : SignDraws

/-- `listening` says that the listener of the signing step is set, `signer` is the one of
the resolving step, `chooseRound` the round of the step that chose Trent; `sent` is
what has been sent. -/
structure Party where
  key : ElGamalKey
  trentK : ElGamalKey
  contract : SigmaContract
  phase : Phase
  round : ℤ
  roundReceived : ℤ → ℕ → Option OrClause
  listening : Bool
  signer : SigmaSigner
  sent : List Outgoing
  chooseRound : ℤ

namespace Party

def initial (key trentK : ElGamalKey) (contract : SigmaContract) (chooseRound : ℤ) : Party where
  key := key
  trentK := trentK
  contract := { contract with trentK := some trentK }
  phase := .choosing
  round := 0
  roundReceived := fun _ _ => none
  listening := false
  signer := ⟨none, none⟩
  sent := []
  chooseRound := chooseRound

def N (p : Party) : ℕ := p.contract.parties.length

def signs (p : Party) : Bool := p.phase == .created || p.phase == .running

def getRound (p : Party) : ℤ := if p.signs then p.round else p.chooseRound

def setContract (p : Party) (c : SigmaContract) : Party := { p with contract := c }

def setStatus (p : Party) (st : Status) : Party := p.setContract { p.contract with status := st }

def setPromise (p : Party) (k : ℤ) (i : ℕ) (o : OrClause) : Party :=
  { p with roundReceived := fun k' i' => if k' = k ∧ i' = i then some o else p.roundReceived k' i' }

/-- The keys of the signer of the resolving step. -/
def setTrentK (p : Party) (k : ElGamalKey) : Party := { p with signer := ⟨some k, p.signer.receiverK⟩ }

def setReceiverK (p : Party) (k : ElGamalKey) : Party := { p with signer := ⟨p.signer.trentK, some k⟩ }

def send (p : Party) (m : Outgoing) : Party := { p with sent := p.sent ++ [m] }

/-- Removing the listener of the current step removes the one of the signing step, once
there is one. -/
def stop (p : Party) : Party := if p.signs then { p with listening := false } else p

/-- Every promise of the current round is there; the last round has none. -/
def claimFormed (p : Party) : Bool :=
  decide (p.N + 2 ≤ p.round) || (List.range p.N).all fun k => (p.roundReceived p.round k).isSome

/-- The loop `while (!(parties.get(i).getPublicKey().equals(key))) i++`. -/
def indexOf (p : Party) (publicKey : ℤ) : Java ℕ :=
  match p.contract.parties.findIdx? fun k => k.publicKey == publicKey with
  | some i => .ok i
  | none => .error .indexOutOfBounds

/-- `parties.get(i)`. -/
def party (p : Party) (i : ℕ) : Java ElGamalKey :=
  match p.contract.parties[i]? with
  | some k => .ok k
  | none => .error .indexOutOfBounds

@[simp] theorem setContract_contract (p : Party) (c : SigmaContract) :
    (p.setContract c).contract = c := rfl

@[simp] theorem setStatus_status (p : Party) (st : Status) :
    (p.setStatus st).contract.status = st := rfl

@[simp] theorem setTrentK_contract (p : Party) (k : ElGamalKey) :
    (p.setTrentK k).contract = p.contract := rfl

@[simp] theorem setTrentK_getRound (p : Party) (k : ElGamalKey) :
    (p.setTrentK k).getRound = p.getRound := rfl

@[simp] theorem setReceiverK_contract (p : Party) (k : ElGamalKey) :
    (p.setReceiverK k).contract = p.contract := rfl

@[simp] theorem stop_contract (p : Party) : p.stop.contract = p.contract := by
  unfold stop
  split <;> rfl

theorem claimFormed_iff {p : Party} (hr : p.round ≤ p.N + 1) :
    p.claimFormed = true ↔ ∀ i < p.N, ∃ o, p.roundReceived p.round i = some o := by
  unfold claimFormed
  rw [decide_eq_false (by omega), Bool.false_or, List.all_eq_true]
  simp only [List.mem_range, Option.isSome_iff_exists]

variable (P : Platform)

def addSignature (k : ElGamalKey) (s : SigmaSignature) : Act Party Unit := do
  let p ← get
  let (result, c) := p.contract.addSignature P.hash (some k) s
  modify fun p => p.setContract c
  Act.lift result

end Party

/-! ### The resolving step -/

namespace ProtocolResolve

variable (P : Platform)

/-- A row of `roundReceived`, which is null before there is a signing step. -/
def row (p : Party) (k : ℤ) : Java (List (Option OrClause)) :=
  if !p.signs then throw .nullPointer
  else if k < 0 ∨ p.N + 2 ≤ k then throw .indexOutOfBounds
  else pure ((List.range p.N).map (p.roundReceived k))

/-- The claim: the promises of the round before, or an abort when there are none. -/
def claim (p : Party) (round : ℤ) : Java String :=
  if round ≤ 1 then pure "ABORT" else P.json <$> row p (round - 1)

def sendMessage (d : SignDraws) : Act Party Unit := do
  modify fun p => p.setStatus .resolving
  let p ← get
  let round := p.getRound
  modify Party.stop
  modify fun p => p.setReceiverK p.trentK
  let claimK ← Act.lift (claim P p round)
  let p ← get
  let sigClaimK ← Act.lift (p.signer.sign P.hash p.key (getBytes claimK) d.1 d.2.1 d.2.2)
  modify fun p => p.send (.request (round - 1) claimK sigClaimK)

/-- The signature is on the data followed by one of three rounds. -/
def accepts (signer : SigmaSigner) (c : SigmaContract) (round : ℤ) (s : SigmaSignature) : Java Bool :=
  Java.any (fun r => signer.verify P.hash (c.roundData r) s) [round, round - 1, round - 2]

/-- One signature of the list that Trent hands out; the key it is checked with stays
set. -/
def addResolved (round : ℤ) (si : Option SigmaSignature × ℕ) : Act Party Unit := do
  let p ← get
  let k ← Act.lift (p.party si.2)
  modify fun p => p.setReceiverK k
  let p ← get
  let s ← Act.lift (nonNull si.1)
  if ← Act.lift (accepts P p.signer p.contract round s) then
    Party.addSignature P k s

/-- The answer is signed by Trent; the receiver's key is the one that was set last. -/
def authentic (p : Party) (a : TrentAnswer) : Java Bool := do
  let text ← a.text
  let sign ← a.signature p.key.publicKey
  let sign ← nonNull sign
  p.signer.verify P.hash (getBytes text) sign

/-- Trent has cancelled the contract. -/
def aborted : Act Party Unit := do
  modify fun p => p.setStatus .cancelled
  modify Party.stop

/-- Trent has opened promises. -/
def resolved (sigSign : Option (List (Option SigmaSignature))) : Act Party Unit := do
  let round := (← get).getRound
  let sigSign ← Act.lift (nonNull sigSign)
  sigSign.zipIdx.forM (addResolved P round)
  if ← Act.lift ((← get).contract.isFinalized P.hash) then
    modify fun p => p.setStatus .finalized
    modify Party.stop

/-- An answer that is Trent's. -/
def verdict (a : TrentAnswer) : Act Party Unit := do
  let kind ← Act.lift a.kind
  if kind = "aborted" ∨ kind = "honestyToken" then aborted
  else if kind = "resolved" then resolved P a.sigSign

def answered (a : TrentAnswer) (senderId : ℤ) : Act Party Unit := do
  let p ← get
  if senderId = p.trentK.publicKey then
    if ← Act.lift a.dishonest then pure ()
    else
      modify fun p => p.setTrentK p.trentK
      if ← Act.lift (authentic P (← get) a) then verdict P a

end ProtocolResolve

/-! ### The signing step -/

namespace ProtocolSign

variable (P : Platform)

def payload (d : Draws) (rk : ElGamalKey × ℕ) : Act Party (ℤ × Payload) := do
  let p ← get
  let isSender := rk.1.publicKey == p.key.publicKey
  let (nonce, sCce, draws) := d.sign p.round rk.2
  if p.round = p.N + 2 then
    let signature ← Act.lift (SigmaSigner.sign P.hash ⟨some p.trentK, some rk.1⟩ p.key
      p.contract.getHashableData nonce sCce draws)
    if isSender then Party.addSignature P rk.1 signature
    return (rk.1.publicKey, .signature signature)
  else
    let o ← Act.lift (PCS.getPcs P.hash p.key p.trentK (p.contract.roundData p.round) rk.1 nonce
      draws)
    if isSender then modify fun p => p.setPromise p.round rk.2 o
    return (rk.1.publicKey, .promise o)

/-- The message of the current round, or a request when the user refuses. -/
def sendMessage (d : Draws) : Act Party Unit := do
  let p ← get
  if p.contract.wish = .refuse then ProtocolResolve.sendMessage P d.resolve
  else
    let content ← p.contract.parties.zipIdx.mapM (payload P d)
    let p ← get
    let _ ← Act.lift (p.indexOf p.key.publicKey)
    modify fun p => p.send (.signing p.round content)

def receiveSignature (i : ℕ) (message : SignMessage) : Act Party Unit := do
  let p ← get
  let signature ← Act.lift (message.signature p.key.publicKey)
  match signature with
  | none => pure ()
  | some signature =>
      if ← Act.lift (SigmaSigner.verify P.hash ⟨some p.trentK, none⟩ p.contract.getHashableData
          signature) then
        let k ← Act.lift (p.party i)
        Party.addSignature P k signature
        if ← Act.lift ((← get).contract.isFinalized P.hash) then
          let _ ← Act.lift (p.indexOf p.key.publicKey)
          modify fun p => p.setStatus .finalized
          modify fun p => { p with listening := false }

/-- A promise of the round `k`, if there is none yet. -/
def receivePromise (i : ℕ) (k : ℤ) (message : SignMessage) : Act Party Unit := do
  let p ← get
  if k < 0 ∨ p.N + 2 ≤ k then throw .indexOutOfBounds
  else
    match p.roundReceived k i with
    | some _ => pure ()
    | none =>
        let o ← Act.lift (message.promise p.key.publicKey)
        let o ← Act.lift (nonNull o)
        if ← Act.lift (o.verifies P.hash (p.contract.roundData k)) then
          modify fun p => p.setPromise k i o

def verifyAndStoreSignature (message : SignMessage) (pubK : ℤ) : Act Party Unit := do
  let p ← get
  let i ← Act.lift (p.indexOf pubK)
  let k ← Act.lift message.round
  if pubK = p.key.publicKey then pure ()
  else if k = p.N + 2 then receiveSignature P i message
  else receivePromise P i k message

/-- The loop that sends the rounds whose claims are there. -/
def sendRounds (d : Draws) : ℕ → Act Party Unit
  | 0 => pure ()
  | left + 1 => do
      let p ← get
      if p.round ≤ p.N + 1 ∧ p.claimFormed ∧ p.contract.status = .signing then
        modify fun p => { p with round := p.round + 1 }
        sendMessage P d
        sendRounds d left

/-- The listener.  The loop has as many steps as there are rounds left. -/
def received (message : SignMessage) (senderId : ℤ) (d : Draws) : Act Party Unit := do
  verifyAndStoreSignature P message senderId
  let p ← get
  sendRounds P d (p.N + 2 - p.round).toNat

end ProtocolSign

/-! ### The establisher -/

inductive Event where
  | listen
  | create
  | start (d : Draws)
  | receive (message : SignMessage) (senderId : ℤ) (d : Draws)
  | answer (a : TrentAnswer) (senderId : ℤ)
  | resolve (d : SignDraws)
  | setWish (w : Wish)

namespace Party

variable (P : Platform)

/-- The listener on Trent is set first, then the signing step is created, and then the
first message is sent.  What comes for a listener that is not set is lost. -/
def handle : Event → Act Party Unit
  | .listen => do
      if (← get).phase = .choosing then
        modify fun p => { p.setStatus .signing with
          phase := .listening, signer := ⟨some p.trentK, none⟩ }
  | .create => do
      if (← get).phase = .listening then
        modify fun p => { p with
          phase := .created, round := 1, roundReceived := fun _ _ => none, listening := true }
  | .start d => do
      if (← get).phase = .created then
        modify fun p => { p with phase := .running }
        ProtocolSign.sendMessage P d
  | .receive message senderId d => do
      if (← get).listening then ProtocolSign.received P message senderId d
  | .answer a senderId => do
      if (← get).phase ≠ .choosing then ProtocolResolve.answered P a senderId
  | .resolve d => do
      if (← get).signs then ProtocolResolve.sendMessage P d
  | .setWish w => modify fun p => p.setContract { p.contract with wish := w }

def machine : Machine Party Event (Java Unit) where
  step p e := (handle P e).exec p

def created (key trentK : ElGamalKey) (contract : SigmaContract) (chooseRound : ℤ) : Party :=
  { initial key trentK { contract with status := .signing } chooseRound with
    phase := .created
    round := 1
    listening := true
    signer := ⟨some trentK, none⟩ }

theorem run_listen_create (key trentK : ElGamalKey) (contract : SigmaContract) (chooseRound : ℤ) :
    (machine P).run (initial key trentK contract chooseRound) [.listen, .create]
      = created key trentK contract chooseRound := by
  rfl

/-! ### Outcomes of calls -/

variable {P}

theorem exec_addSignature (k : ElGamalKey) (s : SigmaSignature) (p : Party) :
    (addSignature P k s).exec p = ((p.contract.addSignature P.hash (some k) s).1,
      p.setContract (p.contract.addSignature P.hash (some k) s).2) := by
  unfold addSignature
  rw [Act.exec_get_bind, Act.exec_modify_bind, Act.exec_lift]

theorem party_eq_ok {p : Party} {i : ℕ} {k : ElGamalKey} :
    p.party i = .ok k ↔ p.contract.parties[i]? = some k := by
  unfold party
  cases p.contract.parties[i]? with
  | none => simp
  | some k' => simp

theorem exists_of_indexOf {p : Party} {publicKey : ℤ} {i : ℕ} (h : p.indexOf publicKey = .ok i) :
    ∃ k, p.contract.parties[i]? = some k ∧ k.publicKey = publicKey := by
  unfold indexOf at h
  cases hfind : p.contract.parties.findIdx? fun k => k.publicKey == publicKey with
  | none =>
    rw [hfind] at h
    exact absurd h (by simp)
  | some i' =>
    rw [hfind] at h
    obtain rfl := Except.ok.inj h
    obtain ⟨hlt, hkey, -⟩ := List.findIdx?_eq_some_iff_getElem.mp hfind
    exact ⟨_, List.getElem?_eq_getElem hlt, beq_iff_eq.mp hkey⟩

/-- A signature that is accepted is stored, and the test runs on what is stored then. -/
theorem exec_receiveSignature {p : Party} {i : ℕ} {message : SignMessage} {k : ElGamalKey}
    {s : SigmaSignature} (hk : p.contract.parties[i]? = some k)
    (hs : message.signature p.key.publicKey = .ok (some s))
    (hv : SigmaSigner.verify P.hash ⟨some p.trentK, none⟩ p.contract.getHashableData s = .ok true) :
    (ProtocolSign.receiveSignature P i message).exec p =
      match (p.contract.putSignature k s).isFinalized P.hash, p.indexOf p.key.publicKey with
      | .error e, _ => (.error e, p.setContract (p.contract.putSignature k s))
      | .ok false, _ => (.ok (), p.setContract (p.contract.putSignature k s))
      | .ok true, .error e => (.error e,
          p.setContract { p.contract.putSignature k s with status := .finalized })
      | .ok true, .ok _ => (.ok (), { p.setContract
          { p.contract.putSignature k s with status := .finalized } with listening := false }) := by
  unfold ProtocolSign.receiveSignature
  rw [Act.exec_get_bind, hs, Act.exec_ok_bind]
  dsimp only
  rw [hv, Act.exec_ok_bind, if_pos rfl, party_eq_ok.mpr hk, Act.exec_ok_bind, Act.exec_bind,
    exec_addSignature, SigmaContract.addSignature_of_mem P.hash (List.mem_of_getElem? hk)]
  rcases hf : (p.contract.putSignature k s).isFinalized P.hash with e | _ | _
  · rfl
  · simp only [Act.exec_get_bind, setContract_contract, hf, Act.exec_ok_bind, Bool.false_eq_true,
      if_false, Act.exec_pure]
  · have hf' := (SigmaContract.isFinalized_status P.hash (c := p.contract.putSignature k s)
      .finalized).trans hf
    simp only [Act.exec_get_bind, setContract_contract, hf', Act.exec_ok_bind, if_true]
    rcases p.indexOf p.key.publicKey with e | j
    · rw [Act.exec_error_bind]
    · rw [Act.exec_ok_bind, Act.exec_modify_bind, Act.exec_modify]
      rfl

theorem exec_receivePromise_eq (p : Party) (i : ℕ) (k : ℤ) (message : SignMessage) :
    (ProtocolSign.receivePromise P i k message).exec p =
      if 0 ≤ k ∧ k < p.N + 2 then
        match p.roundReceived k i with
        | some _ => (.ok (), p)
        | none =>
            match message.promise p.key.publicKey with
            | .error e => (.error e, p)
            | .ok none => (.error .nullPointer, p)
            | .ok (some o) =>
                match o.verifies P.hash (p.contract.roundData k) with
                | .error e => (.error e, p)
                | .ok false => (.ok (), p)
                | .ok true => (.ok (), p.setPromise k i o)
      else (.error .indexOutOfBounds, p) := by
  unfold ProtocolSign.receivePromise
  rw [Act.exec_get_bind]
  by_cases hrange : 0 ≤ k ∧ k < p.N + 2
  · rw [if_pos hrange, if_neg (by omega)]
    cases p.roundReceived k i with
    | some o => rfl
    | none =>
      rcases message.promise p.key.publicKey with e | _ | o
      · rfl
      · rfl
      · dsimp only
        rw [Act.exec_ok_bind, nonNull_some, Act.exec_ok_bind]
        rcases o.verifies P.hash (p.contract.roundData k) with e | _ | _ <;> rfl
  · rw [if_neg hrange, if_pos (by omega)]
    rfl

theorem exec_receivePromise {p : Party} {i : ℕ} {k : ℤ} {message : SignMessage} {o : OrClause}
    (hk : 0 ≤ k ∧ k < p.N + 2) (hm : message.promise p.key.publicKey = .ok (some o))
    (hv : o.verifies P.hash (p.contract.roundData k) = .ok true) :
    (ProtocolSign.receivePromise P i k message).exec p =
      (.ok (), match p.roundReceived k i with
        | some _ => p
        | none => p.setPromise k i o) := by
  rw [exec_receivePromise_eq, if_pos hk, hm]
  cases p.roundReceived k i with
  | some o' => rfl
  | none =>
    dsimp only
    rw [hv]

/-- The only change is a promise that verifies, put in an empty cell. -/
theorem receivePromise_state (p : Party) (i : ℕ) (k : ℤ) (message : SignMessage) :
    ((ProtocolSign.receivePromise P i k message).exec p).2 = p ∨
      ∃ o, (0 ≤ k ∧ k < p.N + 2) ∧ p.roundReceived k i = none ∧
        message.promise p.key.publicKey = .ok (some o) ∧
        o.verifies P.hash (p.contract.roundData k) = .ok true ∧
        ((ProtocolSign.receivePromise P i k message).exec p).2 = p.setPromise k i o := by
  rw [exec_receivePromise_eq]
  by_cases hrange : 0 ≤ k ∧ k < p.N + 2
  · rw [if_pos hrange]
    cases hcell : p.roundReceived k i with
    | some o => exact .inl rfl
    | none =>
      rcases hm : message.promise p.key.publicKey with e | _ | o
      · exact .inl rfl
      · exact .inl rfl
      · dsimp only
        rcases hv : o.verifies P.hash (p.contract.roundData k) with e | _ | _
        · exact .inl rfl
        · exact .inl rfl
        · exact .inr ⟨o, hrange, rfl, rfl, hv, rfl⟩
  · rw [if_neg hrange]
    exact .inl rfl

theorem exec_verifyAndStore {p : Party} {message : SignMessage} {pubK : ℤ} {i : ℕ} {k : ℤ}
    (hi : p.indexOf pubK = .ok i) (hk : message.round = .ok k) (hne : pubK ≠ p.key.publicKey) :
    (ProtocolSign.verifyAndStoreSignature P message pubK).exec p =
      (if k = p.N + 2 then ProtocolSign.receiveSignature P i message
        else ProtocolSign.receivePromise P i k message).exec p := by
  unfold ProtocolSign.verifyAndStoreSignature
  rw [Act.exec_get_bind, hi, Act.exec_ok_bind, hk, Act.exec_ok_bind, if_neg hne]

end Party

end SXP.Sigma
