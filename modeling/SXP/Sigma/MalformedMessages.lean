import SXP.Lib.Numeral
import SXP.Sigma.Answers
import SXP.Sigma.StoredPromise

/-!
# Messages that break the listener

The listener gets the sender's id as a text and a map of texts.  It looks for the id among the
parties without an end, uses the round as an index, and verifies what it decodes with the numbers
that came with it.  `unbroken_iff` says which messages it survives, and leaves everything as it
was but for a valid promise or signature: an id or a round that is none, a round beyond the array
and a number that verification cannot compute with each end the call by an exception, and a
promise of the round `0` is stored.
-/

namespace SXP.Sigma

open SXP.Lib SXP.Lib.Java SXP.Lib.Text

/-- A map of texts: the entry `ROUND`, and what the entry of a public key decodes to. -/
structure MapMessage where
  round : Option String
  promise : ℤ → Java (Option OrClause)
  signature : ℤ → Java (Option SigmaSignature)

/-- The round is read with `Integer.parseInt`. -/
def MapMessage.read (message : MapMessage) : SignMessage where
  round := Numeral.parseInt message.round
  promise := message.promise
  signature := message.signature

/-- What the listener does with a message and the text of its sender's id. -/
def ProtocolSign.verifyAndStoreMessage (P : Platform) (message : MapMessage) (pubK : String) :
    Act Party Unit := do
  let msgSenKey ← Act.lift (Numeral.ofText pubK)
  verifyAndStoreSignature P message.read msgSenKey

/-- **The text of a key is read as the key**: what a party sends is received as before. -/
theorem ProtocolSign.verifyAndStoreMessage_decimal (P : Platform) (message : MapMessage)
    (senderId : ℤ) : verifyAndStoreMessage P message (decimal senderId) =
      verifyAndStoreSignature P message.read senderId := by
  unfold verifyAndStoreMessage
  rw [Numeral.ofText_decimal]
  rfl

namespace Party

variable {P : Platform} {p : Party} {message : MapMessage} {pubK : String} {msgSenKey k : ℤ} {i : ℕ}

/-! ### What a message should do -/

/-- The message is of another party, and it is of this round. -/
structure FromOther (p : Party) (message : MapMessage) (pubK : String) (i : ℕ) (k : ℤ) : Prop where
  sender : ∃ msgSenKey, Numeral.ofText pubK = .ok msgSenKey ∧ p.indexOf msgSenKey = .ok i ∧
    msgSenKey ≠ p.key.publicKey
  round : Numeral.parseInt message.round = .ok k

/-- A valid promise for an empty cell of a round that has promises, or a valid clear signature. -/
def Valid (P : Platform) (p : Party) (message : MapMessage) (i : ℕ) (k : ℤ) : Prop :=
  (1 ≤ k ∧ k ≤ p.N + 1 ∧ p.roundReceived k i = none ∧
    ∃ o, message.promise p.key.publicKey = .ok (some o) ∧
      o.verifies P.hash (p.contract.roundData k) = .ok true) ∨
  (k = p.N + 2 ∧ ∃ s, message.signature p.key.publicKey = .ok (some s) ∧
    SigmaSigner.verify P.hash ⟨some p.trentK, none⟩ p.contract.getHashableData s = .ok true)

/-- The call returns, and promises and contract are as before unless the message is valid. -/
structure Unbroken (P : Platform) (p : Party) (message : MapMessage) (pubK : String) : Prop where
  returns : ((ProtocolSign.verifyAndStoreMessage P message pubK).exec p).1 = .ok ()
  changes :
    ((ProtocolSign.verifyAndStoreMessage P message pubK).exec p).2.roundReceived ≠ p.roundReceived ∨
      ((ProtocolSign.verifyAndStoreMessage P message pubK).exec p).2.contract ≠ p.contract →
    ∃ i k, p.FromOther message pubK i k ∧ Valid P p message i k

/-! ### Messages that do no harm -/

/-- The round has a cell, and the promise for an empty one can be verified and is not one of the
round `0`. -/
structure HarmlessPromise (P : Platform) (p : Party) (message : MapMessage) (i : ℕ) (k : ℤ) :
    Prop where
  range : 0 ≤ k ∧ k < p.N + 2
  promise : p.roundReceived k i = none → ∃ o, message.promise p.key.publicKey = .ok (some o) ∧
    o.Answers ∧ (k = 0 → o.verifies P.hash (p.contract.roundData k) ≠ .ok true)

/-- There is no signature, or it can be verified, and with a valid one the signatures of the
contract can be. -/
def HarmlessSignature (P : Platform) (p : Party) (message : MapMessage) (i : ℕ) : Prop :=
  ∃ signature, message.signature p.key.publicKey = .ok signature ∧ ∀ s, signature = some s →
    SigmaSigner.Answers P.hash ⟨some p.trentK, none⟩ p.contract.getHashableData s ∧
      (SigmaSigner.verify P.hash ⟨some p.trentK, none⟩ p.contract.getHashableData s = .ok true →
        ∀ k, p.contract.parties[i]? = some k → (p.contract.putSignature k s).Answers P.hash ∧
          ((p.contract.putSignature k s).isFinalized P.hash = .ok true →
            ∃ j, p.indexOf p.key.publicKey = .ok j))

/-- The id is that of a party, the round is a number, and what another party sends does no harm. -/
def Bearable (P : Platform) (p : Party) (message : MapMessage) (pubK : String) : Prop :=
  ∃ msgSenKey i k, Numeral.ofText pubK = .ok msgSenKey ∧ p.indexOf msgSenKey = .ok i ∧
    Numeral.parseInt message.round = .ok k ∧ (msgSenKey ≠ p.key.publicKey →
      (k = p.N + 2 → HarmlessSignature P p message i) ∧
        (k ≠ p.N + 2 → HarmlessPromise P p message i k))

/-! ### The two kinds of messages -/

theorem exec_receiveSignature_rejected {message : SignMessage}
    (h : ∀ s, message.signature p.key.publicKey = .ok (some s) →
      SigmaSigner.verify P.hash ⟨some p.trentK, none⟩ p.contract.getHashableData s ≠ .ok true)
    (i : ℕ) : (ProtocolSign.receiveSignature P i message).exec p =
      (match message.signature p.key.publicKey with
        | .error e => .error e
        | .ok none => .ok ()
        | .ok (some s) =>
            (SigmaSigner.verify P.hash ⟨some p.trentK, none⟩ p.contract.getHashableData s).map
              fun _ => (), p) := by
  unfold ProtocolSign.receiveSignature
  rw [Act.exec_get_bind]
  rcases hs : message.signature p.key.publicKey with e | _ | s
  · rfl
  · rfl
  · rw [Act.exec_ok_bind]
    dsimp only
    rcases hv : SigmaSigner.verify P.hash ⟨some p.trentK, none⟩ p.contract.getHashableData s with
      e | _ | _
    · rfl
    · rfl
    · exact absurd hv (h s hs)

/-- **A signature is received without an exception** when it does no harm. -/
theorem returns_receiveSignature {k : ElGamalKey} (hk : p.contract.parties[i]? = some k) :
    ((ProtocolSign.receiveSignature P i message.read).exec p).1 = .ok () ↔
      HarmlessSignature P p message i := by
  unfold HarmlessSignature
  by_cases hvalid : ∃ s, message.signature p.key.publicKey = .ok (some s) ∧
      SigmaSigner.verify P.hash ⟨some p.trentK, none⟩ p.contract.getHashableData s = .ok true
  · obtain ⟨s, hs, hv⟩ := hvalid
    have hanswers := SigmaSigner.returns_verify.mp ⟨true, hv⟩
    have hexec := exec_receiveSignature (i := i) hk (show message.read.signature _ = _ from hs) hv
    rw [hexec, hs]
    constructor
    · intro h
      refine ⟨some s, rfl, fun s' hs' => ?_⟩
      obtain rfl := Option.some.inj hs'
      refine ⟨hanswers, fun _ k' hk' => ?_⟩
      obtain rfl := Option.some.inj (hk.symm.trans hk')
      rcases hf : (p.contract.putSignature k s).isFinalized P.hash with e | _ | _
      · rw [hf] at h
        exact absurd h (by simp)
      · exact ⟨SigmaContract.returns_isFinalized.mp ⟨false, hf⟩, fun h => absurd h (by simp)⟩
      · rcases hj : p.indexOf p.key.publicKey with e | j
        · rw [hf, hj] at h
          exact absurd h (by simp)
        · exact ⟨SigmaContract.returns_isFinalized.mp ⟨true, hf⟩, fun _ => ⟨j, rfl⟩⟩
    · rintro ⟨signature, hsignature, h⟩
      obtain rfl := Except.ok.inj hsignature
      obtain ⟨hfinal, hindex⟩ := (h s rfl).2 hv k hk
      obtain ⟨b, hf⟩ := SigmaContract.returns_isFinalized.mpr hfinal
      cases b with
      | false => rw [hf]
      | true =>
        obtain ⟨j, hj⟩ := hindex hf
        rw [hf, hj]
  · push Not at hvalid
    have hexec : (ProtocolSign.receiveSignature P i message.read).exec p = _ :=
      exec_receiveSignature_rejected hvalid i
    rw [hexec]
    dsimp only [MapMessage.read]
    rcases hs : message.signature p.key.publicKey with e | _ | s
    · exact iff_of_false (by simp) (by simp)
    · exact iff_of_true rfl ⟨none, rfl, by simp⟩
    · have hrejected := hvalid s hs
      have hreturns : Returns (SigmaSigner.verify P.hash ⟨some p.trentK, none⟩
          p.contract.getHashableData s) ↔ _ := SigmaSigner.returns_verify
      dsimp only
      constructor
      · intro h
        refine ⟨some s, rfl, fun s' hs' => ?_⟩
        obtain rfl := Option.some.inj hs'
        refine ⟨hreturns.mp ?_, fun hv => absurd hv hrejected⟩
        rcases hv : SigmaSigner.verify P.hash ⟨some p.trentK, none⟩ p.contract.getHashableData s
          with e | b
        · rw [hv] at h
          exact absurd h (by simp [Except.map])
        · exact returns_ok b
      · rintro ⟨signature, hsignature, h⟩
        obtain rfl := Except.ok.inj hsignature
        obtain ⟨b, hv⟩ := hreturns.mpr (h s rfl).1
        rw [hv]
        rfl

theorem FromOther.unique {i' : ℕ} {k' : ℤ} (h : p.FromOther message pubK i k)
    (h' : p.FromOther message pubK i' k') : i' = i ∧ k' = k := by
  obtain ⟨key, hkey, hi, -⟩ := h.sender
  obtain ⟨key', hkey', hi', -⟩ := h'.sender
  obtain rfl := Except.ok.inj (hkey.symm.trans hkey')
  exact ⟨Except.ok.inj (hi'.symm.trans hi), Except.ok.inj (h'.round.symm.trans h.round)⟩

/-- What is valid for the sender and the round of a message is why something changes. -/
theorem FromOther.changes_iff (h : p.FromOther message pubK i k) :
    (∃ i k, p.FromOther message pubK i k ∧ Valid P p message i k) ↔ Valid P p message i k := by
  constructor
  · rintro ⟨i', k', h', hvalid⟩
    obtain ⟨rfl, rfl⟩ := h.unique h'
    exact hvalid
  · exact fun hvalid => ⟨i, k, h, hvalid⟩

theorem unbroken_of_same
    (h : (ProtocolSign.verifyAndStoreMessage P message pubK).exec p = (.ok (), p)) :
    Unbroken P p message pubK := by
  refine ⟨by rw [h], fun hchanged => ?_⟩
  rw [h] at hchanged
  rcases hchanged with hne | hne <;> exact absurd rfl hne

theorem not_unbroken_of_error {e : JavaException} {q : Party}
    (h : (ProtocolSign.verifyAndStoreMessage P message pubK).exec p = (.error e, q)) :
    ¬ Unbroken P p message pubK := by
  intro hunbroken
  have hreturns := hunbroken.returns
  rw [h] at hreturns
  exact absurd hreturns (by simp)

theorem unbroken_promise_iff (hother : p.FromOther message pubK i k) (hlast : k ≠ p.N + 2)
    (hexec : (ProtocolSign.verifyAndStoreMessage P message pubK).exec p
      = (ProtocolSign.receivePromise P i k message.read).exec p) :
    Unbroken P p message pubK ↔ HarmlessPromise P p message i k := by
  rw [exec_receivePromise_eq] at hexec
  by_cases hrange : 0 ≤ k ∧ k < p.N + 2
  · rw [if_pos hrange] at hexec
    rcases hcell : p.roundReceived k i with _ | o'
    · rw [hcell] at hexec
      dsimp only [MapMessage.read] at hexec
      rcases hmessage : message.promise p.key.publicKey with e | _ | o
      · rw [hmessage] at hexec
        refine iff_of_false (not_unbroken_of_error hexec) fun h => ?_
        obtain ⟨o, ho, -⟩ := h.promise hcell
        exact absurd (hmessage.symm.trans ho) (by simp)
      · rw [hmessage] at hexec
        refine iff_of_false (not_unbroken_of_error hexec) fun h => ?_
        obtain ⟨o, ho, -⟩ := h.promise hcell
        exact absurd (hmessage.symm.trans ho) (by simp)
      · have hpromise : HarmlessPromise P p message i k ↔ o.Answers ∧
            (k = 0 → o.verifies P.hash (p.contract.roundData k) ≠ .ok true) := by
          constructor
          · intro h
            obtain ⟨o', ho', hharmless⟩ := h.promise hcell
            obtain rfl := Option.some.inj (Except.ok.inj (hmessage.symm.trans ho'))
            exact hharmless
          · exact fun h => ⟨hrange, fun _ => ⟨o, hmessage, h⟩⟩
        have hreturns : Returns (o.verifies P.hash (p.contract.roundData k)) ↔ o.Answers :=
          OrClause.returns_verifies
        rw [hpromise, ← hreturns]
        rw [hmessage] at hexec
        dsimp only at hexec
        rcases hv : o.verifies P.hash (p.contract.roundData k) with e | _ | _
        · rw [hv] at hexec
          exact iff_of_false (not_unbroken_of_error hexec) fun h => not_returns_error e h.1
        · rw [hv] at hexec
          exact iff_of_true (unbroken_of_same hexec) ⟨returns_ok false, fun _ => by simp⟩
        · rw [hv] at hexec
          by_cases hzero : k = 0
          · -- the promise of the round `0` is stored
            refine iff_of_false (fun h => ?_) fun h => h.2 hzero rfl
            have hchanged : (p.setPromise k i o).roundReceived ≠ p.roundReceived := by
              intro hsame
              have hstored : (p.setPromise k i o).roundReceived k i = some o := if_pos ⟨rfl, rfl⟩
              rw [hsame, hcell] at hstored
              exact absurd hstored (by simp)
            have hvalid := h.changes (Or.inl (by rw [hexec]; exact hchanged))
            rcases hother.changes_iff.mp hvalid with ⟨hpos, -⟩ | ⟨hk, -⟩
            · omega
            · exact hlast hk
          · refine iff_of_true ⟨by rw [hexec], fun _ => ?_⟩
              ⟨returns_ok true, fun h => absurd h hzero⟩
            exact ⟨i, k, hother, Or.inl ⟨by omega, by omega, hcell, o, hmessage, hv⟩⟩
    · rw [hcell] at hexec
      refine iff_of_true (unbroken_of_same hexec) ⟨hrange, fun hnone => ?_⟩
      exact absurd (hcell.symm.trans hnone) (by simp)
  · rw [if_neg hrange] at hexec
    exact iff_of_false (not_unbroken_of_error hexec) fun h => hrange h.range

theorem unbroken_signature_iff {key : ElGamalKey} (hkey : p.contract.parties[i]? = some key)
    (hother : p.FromOther message pubK i (p.N + 2))
    (hexec : (ProtocolSign.verifyAndStoreMessage P message pubK).exec p
      = (ProtocolSign.receiveSignature P i message.read).exec p) :
    Unbroken P p message pubK ↔ HarmlessSignature P p message i := by
  rw [← returns_receiveSignature hkey, ← hexec]
  refine ⟨fun h => h.returns, fun hreturns => ⟨hreturns, fun hchanged => ?_⟩⟩
  rw [hother.changes_iff]
  by_contra hvalid
  have hrejected : ∀ s, message.read.signature p.key.publicKey = .ok (some s) →
      SigmaSigner.verify P.hash ⟨some p.trentK, none⟩ p.contract.getHashableData s ≠ .ok true :=
    fun s hs hv => hvalid (Or.inr ⟨rfl, s, hs, hv⟩)
  rw [hexec, exec_receiveSignature_rejected hrejected i] at hchanged
  rcases hchanged with hne | hne <;> exact hne rfl

/-- **The listener survives a message, and changes something for a valid one only,** exactly when
the message is of a party, has a round that is a number, and brings nothing that does harm. -/
theorem unbroken_iff (P : Platform) (p : Party) (message : MapMessage) (pubK : String) :
    Unbroken P p message pubK ↔ Bearable P p message pubK := by
  have hunfold : (ProtocolSign.verifyAndStoreMessage P message pubK).exec p =
      (Act.lift (Numeral.ofText pubK) >>=
        ProtocolSign.verifyAndStoreSignature P message.read).exec p := rfl
  rcases hkey : Numeral.ofText pubK with e | key
  · rw [hkey, Act.exec_error_bind] at hunfold
    refine iff_of_false (not_unbroken_of_error hunfold) ?_
    rintro ⟨key, _, _, hkey', -⟩
    exact absurd (hkey.symm.trans hkey') (by simp)
  · rw [hkey, Act.exec_ok_bind] at hunfold
    unfold ProtocolSign.verifyAndStoreSignature at hunfold
    rw [Act.exec_get_bind] at hunfold
    rcases hi : p.indexOf key with e | i
    · rw [hi, Act.exec_error_bind] at hunfold
      refine iff_of_false (not_unbroken_of_error hunfold) ?_
      rintro ⟨key', i, _, hkey', hi', -⟩
      obtain rfl := Except.ok.inj (hkey.symm.trans hkey')
      exact absurd (hi.symm.trans hi') (by simp)
    · rw [hi, Act.exec_ok_bind] at hunfold
      dsimp only [MapMessage.read] at hunfold
      rcases hk : Numeral.parseInt message.round with e | k
      · rw [hk, Act.exec_error_bind] at hunfold
        refine iff_of_false (not_unbroken_of_error hunfold) ?_
        rintro ⟨_, _, k, _, _, hk', -⟩
        exact absurd (hk.symm.trans hk') (by simp)
      · rw [hk, Act.exec_ok_bind] at hunfold
        have hharmless : Bearable P p message pubK ↔ (key ≠ p.key.publicKey →
            (k = p.N + 2 → HarmlessSignature P p message i) ∧
              (k ≠ p.N + 2 → HarmlessPromise P p message i k)) := by
          constructor
          · rintro ⟨key', i', k', hkey', hi', hk', h⟩
            obtain rfl := Except.ok.inj (hkey.symm.trans hkey')
            obtain rfl := Except.ok.inj (hi.symm.trans hi')
            obtain rfl := Except.ok.inj (hk.symm.trans hk')
            exact h
          · exact fun h => ⟨key, i, k, hkey, hi, hk, h⟩
        rw [hharmless]
        by_cases hown : key = p.key.publicKey
        · rw [if_pos hown] at hunfold
          exact iff_of_true (unbroken_of_same hunfold) fun h => absurd hown h
        · have hother : p.FromOther message pubK i k := ⟨⟨key, hkey, hi, hown⟩, hk⟩
          rw [if_neg hown] at hunfold
          by_cases hlast : k = p.N + 2
          · obtain ⟨party, hparty, -⟩ := exists_of_indexOf hi
            rw [if_pos hlast] at hunfold
            rw [hlast] at hother
            rw [unbroken_signature_iff hparty hother hunfold]
            exact ⟨fun h _ => ⟨fun _ => h, fun hne => absurd hlast hne⟩, fun h => (h hown).1 hlast⟩
          · rw [if_neg hlast] at hunfold
            rw [unbroken_promise_iff hother hlast hunfold]
            exact ⟨fun h _ => ⟨fun heq => absurd heq hlast, fun _ => h⟩, fun h => (h hown).2 hlast⟩

def sampleBeyond : MapMessage where
  round := some "5"
  promise := fun _ => .ok (some ⟨[], 0⟩)
  signature := fun _ => .ok none

theorem round_beyond_breaks :
    ¬ Unbroken samplePlatform sampleReceiver sampleBeyond (decimal (sampleKey 1001).publicKey) := by
  have hi : sampleReceiver.indexOf (sampleKey 1001).publicKey = .ok 1 := by decide +kernel
  have hne : (sampleKey 1001).publicKey ≠ sampleReceiver.key.publicKey := by decide +kernel
  have hround : sampleBeyond.read.round = .ok 5 :=
    Numeral.parseInt_decimal (n := 5) (by decide) (by decide)
  have hN : sampleReceiver.N = 2 := rfl
  have hexec : (ProtocolSign.verifyAndStoreMessage samplePlatform sampleBeyond
      (decimal (sampleKey 1001).publicKey)).exec sampleReceiver
        = (.error .indexOutOfBounds, sampleReceiver) := by
    rw [ProtocolSign.verifyAndStoreMessage_decimal, exec_verifyAndStore hi hround hne, hN,
      if_neg (by decide), exec_receivePromise_eq, hN, if_neg (by decide)]
  exact not_unbroken_of_error hexec

end Party

end SXP.Sigma
