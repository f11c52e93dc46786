import SXP.Sigma.Writes
import SXP.Sigma.Kept

/-!
# Final statuses

The two listeners of a party write the same status.  Neither asks whether it is
final: an answer of Trent that cancels the contract does so from every status,
and the last signature finalizes it from every status.  What keeps a final
status is the removal of the listener of the signing step, the claim of the
round loop on the status `SIGNING`, and nothing else.

So a message that arrives changes a final status exactly when it is a
cancellation that reaches a finalized contract, or a signature or an opening
that completes a contract that was cancelled before (`statuses_final_iff`).
-/

namespace SXP.Sigma

open SXP.Lib SXP.Lib.Java SXP.Lib.Text Relation

namespace Party

variable (P : Platform)

/-! ### Messages that change a final status -/

/-- The message is a last-round message of another party with a signature that is
accepted, and with it the contract is finalized. -/
def Finalizes (p : Party) (message : SignMessage) (senderId : ℤ) : Prop :=
  p.listening = true ∧ senderId ≠ p.key.publicKey ∧ message.round = .ok (p.N + 2 : ℤ) ∧
    ∃ i k s, p.indexOf senderId = .ok i ∧ p.contract.parties[i]? = some k ∧
      message.signature p.key.publicKey = .ok (some s) ∧
      SigmaSigner.verify P.hash ⟨some p.trentK, none⟩ p.contract.getHashableData s = .ok true ∧
      (p.contract.putSignature k s).isFinalized P.hash = .ok true

/-- The listener on Trent is set, and takes the answer for one of Trent's that is meant. -/
def Hears (p : Party) (a : TrentAnswer) (senderId : ℤ) : Prop :=
  p.phase ≠ .choosing ∧ senderId = p.trentK.publicKey ∧ a.dishonest = .ok false ∧
    ProtocolResolve.authentic P (p.setTrentK p.trentK) a = .ok true

def Cancels (p : Party) (a : TrentAnswer) (senderId : ℤ) : Prop :=
  p.Hears P a senderId ∧ (a.kind = .ok "aborted" ∨ a.kind = .ok "honestyToken")

/-- Adding the signatures one after the other, those that are accepted, comes to a
contract that is finalized. -/
def CompletedBy (trentK : ElGamalKey) (round : ℤ) :
    SigmaContract → List (Option SigmaSignature × ℕ) → Prop
  | c, [] => c.isFinalized P.hash = .ok true
  | c, (si, i) :: l => ∃ k s, c.parties[i]? = some k ∧ si = some s ∧
      ((ProtocolResolve.accepts P ⟨some trentK, some k⟩ c round s = .ok false ∧
          CompletedBy trentK round c l) ∨
        (ProtocolResolve.accepts P ⟨some trentK, some k⟩ c round s = .ok true ∧
          ((c.putSignature k s).isFinalized P.hash = .ok true ∨
            ((c.putSignature k s).isFinalized P.hash = .ok false ∧
              CompletedBy trentK round (c.putSignature k s) l))))

def Completes (p : Party) (a : TrentAnswer) (senderId : ℤ) : Prop :=
  p.Hears P a senderId ∧ a.kind = .ok "resolved" ∧
    ∃ l, a.sigSign = some l ∧ CompletedBy P p.trentK p.getRound p.contract l.zipIdx

variable {P}

abbrev StaysFinalized (p p' : Party) : Prop :=
  p.contract.status = .finalized → p'.contract.status = .finalized

/-! ### The signing listener -/

theorem storing_finalized : Storing P StaysFinalized where
  refl _ hp := hp
  trans _ _ _ h h' hp := h' (h hp)
  signature p k s := by
    intro hp
    obtain ⟨signatures, status, heq, hst⟩ := p.contract.addSignature_eq P.hash (some k) s
    show (p.contract.addSignature P.hash (some k) s).2.status = .finalized
    rw [heq]
    rcases hst with rfl | rfl
    · exact hp
    · rfl
  finalized _ _ := rfl
  deaf _ hp := hp
  promise _ _ _ _ hp := hp

/-- A signature that is stored finalizes the contract at once or not at all. -/
theorem receiveSignature_status {p : Party} (hp : p.contract.status ≠ .finalized) (i : ℕ)
    (message : SignMessage) :
    ((ProtocolSign.receiveSignature P i message).exec p).2.contract.status = .finalized ↔
      ∃ k s, p.contract.parties[i]? = some k ∧
        message.signature p.key.publicKey = .ok (some s) ∧
        SigmaSigner.verify P.hash ⟨some p.trentK, none⟩ p.contract.getHashableData s = .ok true ∧
        (p.contract.putSignature k s).isFinalized P.hash = .ok true := by
  by_cases h : ∃ k s, p.contract.parties[i]? = some k ∧
      message.signature p.key.publicKey = .ok (some s) ∧
      SigmaSigner.verify P.hash ⟨some p.trentK, none⟩ p.contract.getHashableData s = .ok true
  · obtain ⟨k, s, hk, hs, hv⟩ := h
    rw [exec_receiveSignature hk hs hv]
    have hput : (p.contract.putSignature k s).status ≠ .finalized := hp
    rcases hf : (p.contract.putSignature k s).isFinalized P.hash with e | _ | _
    · simp [hput, hk, hs, hv, hf]
    · simp [hput, hk, hs, hv, hf]
    · rcases p.indexOf p.key.publicKey with e | j <;> simp [hk, hs, hv, hf]
  · refine iff_of_false ?_ fun ⟨k, s, hk, hs, hv, _⟩ => h ⟨k, s, hk, hs, hv⟩
    unfold ProtocolSign.receiveSignature
    rw [Act.exec_get_bind]
    apply Act.after_lift (Q := fun q : Party => q.contract.status ≠ .finalized) hp
    intro signature hs
    cases signature with
    | none => exact hp
    | some s =>
      apply Act.after_lift (Q := fun q : Party => q.contract.status ≠ .finalized) hp
      intro b hv
      cases b with
      | false => exact hp
      | true =>
        apply Act.after_lift (Q := fun q : Party => q.contract.status ≠ .finalized) hp
        intro k hk
        exact absurd ⟨k, s, party_eq_ok.mp hk, hs, hv⟩ h

theorem receivePromise_contract (p : Party) (i : ℕ) (k : ℤ) (message : SignMessage) :
    ((ProtocolSign.receivePromise P i k message).exec p).2.contract = p.contract := by
  rcases receivePromise_state (P := P) p i k message with hp | ⟨o, -, -, -, -, hp⟩
  · rw [hp]
  · rw [hp]
    rfl

theorem verifyAndStore_status {p : Party} (hl : p.listening = true)
    (hp : p.contract.status ≠ .finalized) (message : SignMessage) (senderId : ℤ) :
    ((ProtocolSign.verifyAndStoreSignature P message senderId).exec p).2.contract.status
      = .finalized ↔ p.Finalizes P message senderId := by
  unfold ProtocolSign.verifyAndStoreSignature Finalizes
  rw [Act.exec_get_bind]
  rcases p.indexOf senderId with e | i
  · simp [hp]
  rw [Act.exec_ok_bind]
  rcases message.round with e | k
  · simp [hp]
  rw [Act.exec_ok_bind]
  by_cases hs : senderId = p.key.publicKey
  · rw [if_pos hs]
    simp [hp, hs]
  rw [if_neg hs]
  by_cases hk : k = p.N + 2
  · rw [if_pos hk, receiveSignature_status hp]
    simp [hl, hs, hk]
  · rw [if_neg hk, receivePromise_contract]
    simp [hp, hk]

theorem sendRounds_halted {p : Party} (hp : p.contract.status ≠ .signing) (d : Draws) (left : ℕ) :
    (ProtocolSign.sendRounds P d left).exec p = (.ok (), p) := by
  cases left with
  | zero => exact Act.exec_pure _ _
  | succ left =>
    rw [ProtocolSign.sendRounds, Act.exec_get_bind, if_neg fun h => hp h.2.2]
    exact Act.exec_pure _ _

/-- A listener that is told something while the status is not `SIGNING` is done with the
message itself. -/
theorem received_halted {p : Party} (hp : p.Halted) (message : SignMessage) (senderId : ℤ)
    (d : Draws) :
    ((ProtocolSign.received P message senderId d).exec p).2
      = ((ProtocolSign.verifyAndStoreSignature P message senderId).exec p).2 := by
  unfold ProtocolSign.received
  have hstore : Evolves P (fun _ _ => True) p
      ((ProtocolSign.verifyAndStoreSignature P message senderId).exec p).2 :=
    (verifyAndStoreSignature_writes fun _ _ _ _ _ => trivial).evolves
  refine Act.after_bind (Q := fun q => q = _) (fun _ _ => rfl) ?_
  intro _ _
  rw [Act.exec_get_bind, sendRounds_halted (hstore.halted hp).status]

/-! ### The resolving listener -/

theorem exec_addResolved (round : ℤ) (si : Option SigmaSignature) (i : ℕ) (p : Party) :
    (ProtocolResolve.addResolved P round (si, i)).exec p =
      match p.party i, si with
      | .error e, _ => (.error e, p)
      | .ok k, none => (.error .nullPointer, p.setReceiverK k)
      | .ok k, some s =>
          match ProtocolResolve.accepts P ⟨p.signer.trentK, some k⟩ p.contract round s with
          | .error e => (.error e, p.setReceiverK k)
          | .ok false => (.ok (), p.setReceiverK k)
          | .ok true => (addSignature P k s).exec (p.setReceiverK k) := by
  unfold ProtocolResolve.addResolved
  rw [Act.exec_get_bind]
  rcases p.party i with e | k
  · exact Act.exec_error_bind _ _ _
  rw [Act.exec_ok_bind, Act.exec_modify_bind, Act.exec_get_bind]
  cases si with
  | none => exact Act.exec_error_bind _ _ _
  | some s =>
    rw [nonNull_some, Act.exec_ok_bind]
    simp only [setReceiverK]
    rcases ProtocolResolve.accepts P ⟨p.signer.trentK, some k⟩ p.contract round s with e | _ | _
    · exact Act.exec_error_bind _ _ _
    · exact Act.exec_ok_bind _ _ _
    · exact Act.exec_ok_bind _ _ _

theorem addResolved_finalized (round : ℤ) (si : Option SigmaSignature × ℕ) (p : Party) :
    StaysFinalized p ((ProtocolResolve.addResolved P round si).exec p).2 := by
  intro hp
  obtain ⟨s, i⟩ := si
  rw [exec_addResolved]
  rcases p.party i with e | k
  · exact hp
  cases s with
  | none => exact hp
  | some s =>
    dsimp only
    rcases ProtocolResolve.accepts P ⟨p.signer.trentK, some k⟩ p.contract round s with e | _ | _
    · exact hp
    · exact hp
    · exact storing_finalized.addSignature k s (p.setReceiverK k) hp

/-- The loop over the signatures, and the test after it. -/
def addAll (P : Platform) (round : ℤ) (l : List (Option SigmaSignature × ℕ)) : Act Party Unit := do
  l.forM (ProtocolResolve.addResolved P round)
  if ← Act.lift ((← get).contract.isFinalized P.hash) then
    modify fun p => p.setStatus .finalized
    modify Party.stop

theorem addAll_finalized (round : ℤ) (l : List (Option SigmaSignature × ℕ)) (p : Party) :
    StaysFinalized p ((addAll P round l).exec p).2 := by
  intro hp
  unfold addAll
  have hloop := Act.keeps_forM (R := StaysFinalized) (fun _ => id) (fun _ _ _ h h' => h' ∘ h)
    (f := ProtocolResolve.addResolved P round) (l := l)
    (fun si _ q => addResolved_finalized round si q) p hp
  apply Act.after_bind (Q := fun q : Party => q.contract.status = .finalized) (fun _ _ => hloop)
  intro _ _
  rw [Act.exec_get_bind]
  apply Act.after_lift (Q := fun q : Party => q.contract.status = .finalized) hloop
  intro b _
  cases b with
  | false => exact hloop
  | true =>
    simp only [if_true, Act.exec_modify_bind, Act.exec_modify, stop_contract]
    rfl

theorem addAll_cons (round : ℤ) (si : Option SigmaSignature × ℕ)
    (l : List (Option SigmaSignature × ℕ)) :
    addAll P round (si :: l) =
      (ProtocolResolve.addResolved P round si >>= fun _ => addAll P round l) := by
  unfold addAll
  rw [List.forM_eq_forM, List.forM_cons, bind_assoc]

theorem addAll_status {t : ElGamalKey} (round : ℤ) (l : List (Option SigmaSignature × ℕ)) :
    ∀ p : Party, p.signer.trentK = some t → p.contract.status ≠ .finalized →
      (((addAll P round l).exec p).2.contract.status = .finalized ↔
        CompletedBy P t round p.contract l) := by
  induction l with
  | nil =>
    intro p _ hp
    unfold addAll CompletedBy
    have hloop : (List.forM [] (ProtocolResolve.addResolved P round)).exec p = (.ok (), p) :=
      Act.exec_pure _ _
    rw [Act.exec_bind_ok hloop, Act.exec_get_bind]
    rcases p.contract.isFinalized P.hash with e | _ | _
    · simp [hp]
    · simp [hp]
    · simp [stop_contract, setStatus]
  | cons head l ih =>
    intro p hsigner hp
    obtain ⟨si, i⟩ := head
    rw [addAll_cons, CompletedBy, Act.exec_bind, exec_addResolved, hsigner]
    rcases hk : p.party i with e | k
    · have hnone : ∀ k, p.contract.parties[i]? ≠ some k := by
        intro k h
        rw [party_eq_ok.mpr h] at hk
        exact absurd hk (by simp)
      simp [hp, hnone]
    rw [party_eq_ok] at hk
    cases si with
    | none => simp [hp]
    | some s =>
      simp only [hk, Option.some.injEq]
      rcases ha : ProtocolResolve.accepts P ⟨some t, some k⟩ p.contract round s with e | _ | _
      · simp [hp, ha]
      · have hrest := ih (p.setReceiverK k) hsigner hp
        rw [setReceiverK_contract] at hrest
        simp [hrest, ha]
      · have hput : (p.contract.putSignature k s).status ≠ .finalized := hp
        simp only [exec_addSignature, setReceiverK_contract,
          SigmaContract.addSignature_of_mem P.hash (List.mem_of_getElem? hk)]
        rcases hf : (p.contract.putSignature k s).isFinalized P.hash with e | _ | _
        · simp [hput, ha, hf]
        · have hrest := ih ((p.setReceiverK k).setContract (p.contract.putSignature k s)) hsigner hput
          rw [setContract_contract] at hrest
          simp [hrest, ha, hf]
        · have hrest := addAll_finalized (P := P) round l ((p.setReceiverK k).setContract
            { p.contract.putSignature k s with status := .finalized }) rfl
          simp [hrest, ha, hf]

theorem exec_resolved (sigSign : Option (List (Option SigmaSignature))) (p : Party) :
    (ProtocolResolve.resolved P sigSign).exec p =
      match sigSign with
      | none => (.error .nullPointer, p)
      | some l => (addAll P p.getRound l.zipIdx).exec p := by
  unfold ProtocolResolve.resolved addAll
  rw [Act.exec_get_bind]
  cases sigSign with
  | none => exact Act.exec_error_bind _ _ _
  | some l => rw [nonNull_some, Act.exec_ok_bind]

theorem exec_aborted (p : Party) :
    (ProtocolResolve.aborted).exec p = (.ok (), (p.setStatus .cancelled).stop) := by
  unfold ProtocolResolve.aborted
  rw [Act.exec_modify_bind, Act.exec_modify]

/-- An answer that is not heard changes nothing in the contract. -/
theorem answered_unheard {p : Party} {a : TrentAnswer} {senderId : ℤ} (hp : p.phase ≠ .choosing)
    (h : ¬ p.Hears P a senderId) :
    ((ProtocolResolve.answered P a senderId).exec p).2.contract = p.contract := by
  unfold ProtocolResolve.answered
  rw [Act.exec_get_bind]
  by_cases hs : senderId = p.trentK.publicKey
  · rw [if_pos hs]
    rcases hd : a.dishonest with e | _ | _
    · rfl
    · rw [Act.exec_ok_bind, if_neg (by decide), Act.exec_modify_bind, Act.exec_get_bind]
      rcases ha : ProtocolResolve.authentic P (p.setTrentK p.trentK) a with e | _ | _
      · rfl
      · rfl
      · exact absurd ⟨hp, hs, hd, ha⟩ h
    · rfl
  · rw [if_neg hs]
    rfl

theorem answered_heard {p : Party} {a : TrentAnswer} {senderId : ℤ} (h : p.Hears P a senderId) :
    (ProtocolResolve.answered P a senderId).exec p
      = (ProtocolResolve.verdict P a).exec (p.setTrentK p.trentK) := by
  obtain ⟨-, hs, hd, ha⟩ := h
  unfold ProtocolResolve.answered
  rw [Act.exec_get_bind, if_pos hs, hd, Act.exec_ok_bind, if_neg (by decide), Act.exec_modify_bind,
    Act.exec_get_bind, ha, Act.exec_ok_bind, if_pos rfl]

theorem answered_finalized {p : Party} (hphase : p.phase ≠ .choosing)
    (hp : p.contract.status = .finalized) (a : TrentAnswer) (senderId : ℤ) :
    ((ProtocolResolve.answered P a senderId).exec p).2.contract.status = .finalized ↔
      ¬ p.Cancels P a senderId := by
  by_cases hh : p.Hears P a senderId
  · rw [answered_heard hh]
    unfold Cancels ProtocolResolve.verdict
    rcases a.kind with e | kind
    · simp [hp]
    rw [Act.exec_ok_bind]
    by_cases hk : kind = "aborted" ∨ kind = "honestyToken"
    · rw [if_pos hk, exec_aborted]
      simpa [hh, or_iff_not_imp_left] using hk
    · rw [if_neg hk]
      have hne : ¬ (p.Hears P a senderId ∧ ((.ok kind : Java String) = .ok "aborted" ∨
          (.ok kind : Java String) = .ok "honestyToken")) := by
        simpa [hh] using hk
      refine iff_of_true ?_ hne
      by_cases hr : kind = "resolved"
      · rw [if_pos hr, exec_resolved]
        cases a.sigSign with
        | none => exact hp
        | some l => exact addAll_finalized _ _ _ hp
      · rw [if_neg hr]
        exact hp
  · rw [answered_unheard hphase hh]
    exact iff_of_true hp fun h => hh h.1

/-- The other statuses become `FINALIZED` by the answers that complete the contract. -/
theorem answered_status {p : Party} (hphase : p.phase ≠ .choosing)
    (hp : p.contract.status ≠ .finalized) (a : TrentAnswer) (senderId : ℤ) :
    ((ProtocolResolve.answered P a senderId).exec p).2.contract.status = .finalized ↔
      p.Completes P a senderId := by
  by_cases hh : p.Hears P a senderId
  · rw [answered_heard hh]
    unfold Completes ProtocolResolve.verdict
    rcases a.kind with e | kind
    · simp [hp]
    rw [Act.exec_ok_bind]
    by_cases hk : kind = "aborted" ∨ kind = "honestyToken"
    · have hne : kind ≠ "resolved" := by
        rcases hk with rfl | rfl <;> decide
      rw [if_pos hk, exec_aborted]
      simp [hne]
    · rw [if_neg hk]
      by_cases hr : kind = "resolved"
      · rw [if_pos hr, exec_resolved]
        cases a.sigSign with
        | none => simpa using hp
        | some l =>
          have h := addAll_status (P := P) (p.setTrentK p.trentK).getRound l.zipIdx
            (p.setTrentK p.trentK) rfl hp
          simpa [hh, hr] using h
      · rw [if_neg hr]
        simpa [hr] using hp
  · rw [answered_unheard hphase hh]
    exact iff_of_false hp fun h => hh h.1

/-! ### Runs -/

def Delivery : Event → Prop
  | .receive _ _ _ => True
  | .answer _ _ => True
  | _ => False

def WasCancelled (P : Platform) (p₀ : Party) (pre : List Event) : Prop :=
  ∃ pre', pre' <+: pre ∧ ((machine P).run p₀ pre').contract.status = .cancelled

/-- **Final statuses are final**: a message leaves `FINALIZED` as it is, and after a
cancellation it sets no `FINALIZED`. -/
def KeepsFinal (P : Platform) (p₀ : Party) (pre : List Event) (p : Party) (e : Event) : Prop :=
  Delivery e →
    (p.contract.status = .finalized → ((machine P).next p e).contract.status = .finalized) ∧
    (WasCancelled P p₀ pre → p.contract.status ≠ .finalized →
      ((machine P).next p e).contract.status ≠ .finalized)

/-- No cancellation reaches a finalized contract, and what reaches a contract after a
cancellation does not complete it. -/
def Harmless (P : Platform) (p₀ : Party) (pre : List Event) (p : Party) : Event → Prop
  | .receive message senderId _ => WasCancelled P p₀ pre → p.contract.status ≠ .finalized →
      ¬ p.Finalizes P message senderId
  | .answer a senderId => (p.contract.status = .finalized → ¬ p.Cancels P a senderId) ∧
      (WasCancelled P p₀ pre → p.contract.status ≠ .finalized → ¬ p.Completes P a senderId)
  | _ => True

theorem keepsFinal_iff {p₀ p : Party} {pre : List Event} (hready : p.Ready)
    (hhalted : WasCancelled P p₀ pre → p.Halted) (e : Event) :
    KeepsFinal P p₀ pre p e ↔ Harmless P p₀ pre p e := by
  unfold KeepsFinal Harmless
  change (Delivery e → (_ → ((handle P e).exec p).2.contract.status = .finalized) ∧
    (_ → _ → ((handle P e).exec p).2.contract.status ≠ .finalized)) ↔ _
  cases e with
  | receive message senderId d =>
    rw [handle, Act.exec_get_bind]
    by_cases hl : p.listening = true
    · rw [if_pos hl]
      constructor
      · intro h hc hp
        have hnot := (h trivial).2 hc hp
        rwa [Ne, received_halted (hhalted hc), verifyAndStore_status hl hp] at hnot
      · intro h _
        refine ⟨fun hp => ?_, fun hc hp => ?_⟩
        · have hphase : p.phase ≠ .choosing := by
            intro hphase
            have hs := hready hl
            rw [Party.signs, hphase] at hs
            exact absurd hs (by decide)
          rw [received_halted ⟨hphase, by rw [hp]; decide⟩]
          exact storing_finalized.verifyAndStore message senderId p hp
        · rw [Ne, received_halted (hhalted hc), verifyAndStore_status hl hp]
          exact h hc hp
    · rw [if_neg hl]
      exact iff_of_true (fun _ => ⟨fun hp => hp, fun _ hp => hp⟩) fun _ _ hf => hl hf.1
  | answer a senderId =>
    rw [handle, Act.exec_get_bind]
    by_cases hphase : p.phase = .choosing
    · rw [if_neg fun h => h hphase]
      refine iff_of_true (fun _ => ⟨fun hp => hp, fun _ hp => hp⟩) ⟨?_, ?_⟩
      · exact fun _ hc => hc.1.1 hphase
      · exact fun _ _ hc => hc.1.1 hphase
    · rw [if_pos hphase]
      constructor
      · intro h
        refine ⟨fun hp => ?_, fun hc hp => ?_⟩
        · exact (answered_finalized hphase hp a senderId).mp ((h trivial).1 hp)
        · exact fun hf => (h trivial).2 hc hp ((answered_status hphase hp a senderId).mpr hf)
      · rintro ⟨hcancel, hcomplete⟩ _
        refine ⟨fun hp => ?_, fun hc hp hf => ?_⟩
        · exact (answered_finalized hphase hp a senderId).mpr (hcancel hp)
        · exact hcomplete hc hp ((answered_status hphase hp a senderId).mp hf)
  | _ => exact iff_of_true (fun h => h.elim) trivial

theorem next_evolves {p : Party} (hp : p.Ready) (e : Event) :
    Evolves P (fun _ _ => True) p ((machine P).next p e) :=
  handle_writes hp e fun _ _ _ _ _ _ _ _ _ => trivial

/-- Before the listener on Trent is set no event touches the status. -/
theorem next_choosing {p : Party} (hready : p.Ready) (hp : p.phase = .choosing) (e : Event)
    (h : ((machine P).next p e).phase = .choosing) :
    ((machine P).next p e).contract.status = p.contract.status := by
  have hsigns : p.signs = false := by rw [Party.signs, hp]; rfl
  have htakes := takes_next (P := P) p e
  generalize (machine P).next p e = p' at h htakes ⊢
  cases htakes with
  | ignored => rfl
  | listen => exact absurd h (by simp)
  | create hphase => exact absurd (hp.symm.trans hphase) (by decide)
  | start d hphase => exact absurd (hp.symm.trans hphase) (by decide)
  | receive message senderId d hl =>
    exact absurd (hsigns.symm.trans (hready hl)) (by decide)
  | answer a senderId hphase => exact absurd hp hphase
  | resolve d hs => exact absurd (hsigns.symm.trans hs) (by decide)
  | setWish w => rfl

theorem initial_ready (key trentK : ElGamalKey) (c : SigmaContract) (chooseRound : ℤ) :
    (initial key trentK c chooseRound).Ready := by
  intro hl
  exact absurd hl (by simp [initial])

theorem run_ready {p : Party} (hp : p.Ready) (es : List Event) : ((machine P).run p es).Ready :=
  (machine P).invariant (I := Ready) hp (fun _ e h => (next_evolves h e).ready h) es

/-- A contract is cancelled by an answer, so the listener on Trent is set then. -/
theorem run_cancelled (key trentK : ElGamalKey) {c : SigmaContract} (hc : c.status ≠ .cancelled)
    (chooseRound : ℤ) (es : List Event)
    (h : ((machine P).run (initial key trentK c chooseRound) es).contract.status = .cancelled) :
    ((machine P).run (initial key trentK c chooseRound) es).Halted := by
  refine ⟨?_, by rw [h]; decide⟩
  have hinv := (machine P).invariant
    (I := fun p => p.Ready ∧ (p.phase = .choosing → p.contract.status ≠ .cancelled))
    (s := initial key trentK c chooseRound) ⟨initial_ready key trentK c chooseRound, fun _ => hc⟩
    (by
      rintro p e ⟨hready, hp⟩
      refine ⟨(next_evolves hready e).ready hready, ?_⟩
      intro hnext
      have hphase : p.phase = .choosing := by
        by_contra hne
        exact (next_evolves hready e).phase hne hnext
      rw [next_choosing hready hphase e hnext]
      exact hp hphase) es
  exact fun hphase => hinv.2 hphase h

theorem run_halted (key trentK : ElGamalKey) {c : SigmaContract} (hc : c.status ≠ .cancelled)
    (chooseRound : ℤ) (es : List Event)
    (h : WasCancelled P (initial key trentK c chooseRound) es) :
    ((machine P).run (initial key trentK c chooseRound) es).Halted := by
  obtain ⟨pre, ⟨rest, rfl⟩, hpre⟩ := h
  rw [Machine.run_append]
  refine ((machine P).invariant (I := fun p => p.Ready ∧ p.Halted)
    ⟨run_ready (initial_ready key trentK c chooseRound) pre, run_cancelled key trentK hc chooseRound pre hpre⟩
    ?_ rest).2
  rintro p e ⟨hready, hp⟩
  exact ⟨(next_evolves hready e).ready hready, (next_evolves hready e).halted hp⟩

/-- **Final statuses are final in exactly the runs of harmless events.** -/
theorem statuses_final_iff (P : Platform) (key trentK : ElGamalKey) (c : SigmaContract)
    (hc : c.status ≠ .cancelled) (chooseRound : ℤ) (es : List Event) :
    (machine P).Along (KeepsFinal P (initial key trentK c chooseRound))
        (initial key trentK c chooseRound) es ↔
      (machine P).Along (Harmless P (initial key trentK c chooseRound))
        (initial key trentK c chooseRound) es := by
  refine forall₄_congr fun pre e post _ => ?_
  exact keepsFinal_iff (run_ready (initial_ready key trentK c chooseRound) pre)
    (run_halted key trentK hc chooseRound pre) e

/-! ### A cancelled contract of two -/

def sampleParty : Party :=
  initial (sampleKey 1001) (sampleKey 1002).getPublicKeys SigmaContract.sampleContract 2

/-- The message of the last round with the signature `s` for the second party. -/
def sampleLast (s : SigmaSignature) : Event :=
  .receive (.ofContent 4 [((sampleKey 1001).publicKey, .signature s)]) (sampleKey 1000).publicKey
    ⟨fun _ _ => (7, 8, ⟨1, 2, 3, 4, 5, 6⟩), (7, 8, ⟨1, 2, 3, 4, 5, 6⟩)⟩

/-- Trent's abort, signed with `s`. -/
def sampleAbort (s : SigmaSignature) : Event :=
  .answer ⟨.ok false, .ok "aborted", .ok "ABORT", fun _ => .ok (some s), none⟩
    (sampleKey 1002).publicKey

/-- The first party's signature and then Trent's abort reach the second party. -/
theorem statuses_final_sample : ∃ s s',
    SigmaSigner.sign sha256
      ⟨some (sampleKey 1002).getPublicKeys, some (sampleKey 1001).getPublicKeys⟩ (sampleKey 1000)
      SigmaContract.sampleContract.getHashableData 7 8 ⟨1, 2, 3, 4, 5, 6⟩ = .ok s ∧
    SigmaSigner.sign sha256
      ⟨some (sampleKey 1002).getPublicKeys, some (sampleKey 1001).getPublicKeys⟩ (sampleKey 1002)
      (getBytes "ABORT") 7 8 ⟨1, 2, 3, 4, 5, 6⟩ = .ok s' ∧
    SigmaContract.sampleContract.status ≠ .cancelled ∧
    ((machine samplePlatform).Along (KeepsFinal samplePlatform sampleParty) sampleParty
        [.listen, .create, sampleLast s, sampleAbort s'] ↔
      (machine samplePlatform).Along (Harmless samplePlatform sampleParty) sampleParty
        [.listen, .create, sampleLast s, sampleAbort s']) := by
  obtain ⟨s, hs, -⟩ := sign_accepted sha256
    (sampleKey_registered (x := 1000) 1002 (by decide +kernel)) (sampleKey_owned 1000)
    (sampleKey_valid 1001) SigmaContract.sampleContract.getHashableData 7 8 ⟨1, 2, 3, 4, 5, 6⟩
  obtain ⟨s', hs', -⟩ := sign_accepted sha256
    (sampleKey_registered (x := 1002) 1002 (by decide +kernel)) (sampleKey_owned 1002)
    (sampleKey_valid 1001) (getBytes "ABORT") 7 8 ⟨1, 2, 3, 4, 5, 6⟩
  have hc : SigmaContract.sampleContract.status ≠ .cancelled := by decide
  exact ⟨s, s', hs, hs', hc, statuses_final_iff samplePlatform (sampleKey 1001)
    (sampleKey 1002).getPublicKeys SigmaContract.sampleContract hc 2
    [.listen, .create, sampleLast s, sampleAbort s']⟩

def sampleDeaf (c : SigmaContract) : Party :=
  { (created (sampleKey 1001) (sampleKey 1002).getPublicKeys SigmaContract.sampleContract
      2).setContract c with listening := false }

theorem sampleLast_next {s : SigmaSignature}
    (hs : ∀ signer : SigmaSigner, signer.Agrees (sampleKey 1000) (sampleKey 1002).getPublicKeys →
      signer.verify sha256 SigmaContract.sampleContract.getHashableData s = .ok true) :
    (machine samplePlatform).run sampleParty [.listen, .create, sampleLast s] = sampleDeaf
      { SigmaContract.sampleContract.putSignature (sampleKey 1000).getPublicKeys s with
        status := .finalized } := by
  let p := created (sampleKey 1001) (sampleKey 1002).getPublicKeys SigmaContract.sampleContract 2
  have hne : (sampleKey 1000).publicKey ≠ (sampleKey 1001).publicKey := by decide +kernel
  have hindex : p.indexOf (sampleKey 1000).publicKey = .ok 0 := by
    simp [p, indexOf, created, initial, SigmaContract.sampleContract, List.findIdx?_cons,
      ElGamalKey.getPublicKeys]
  have hindex' : p.indexOf p.key.publicKey = .ok 1 := by
    simp [p, indexOf, created, initial, SigmaContract.sampleContract, List.findIdx?_cons,
      ElGamalKey.getPublicKeys, hne]
  have hN : (4 : ℤ) = p.N + 2 := rfl
  have hmessage : (SignMessage.ofContent 4 [((sampleKey 1001).publicKey, .signature s)]).signature
      p.key.publicKey = .ok (some s) := by
    simp [SignMessage.ofContent, entry, p, created, initial]
  have hfin : (p.contract.putSignature (sampleKey 1000).getPublicKeys s).isFinalized
      samplePlatform.hash = .ok true := by
    refine SigmaContract.isFinalized_of_clear sha256 rfl rfl
      (SigmaContract.putSignature_self p.contract _ s) ?_
    rw [SigmaContract.verifiesClear, SigmaContract.clearData_eq]
    refine hs _ ⟨?_, ?_⟩ <;> rintro r ⟨⟩ <;> rfl
  have hverify : SigmaSigner.verify samplePlatform.hash ⟨some p.trentK, none⟩
      p.contract.getHashableData s = .ok true := by
    refine hs _ ⟨?_, ?_⟩
    · exact fun r hr => absurd hr (by simp)
    · rintro r ⟨⟩
      rfl
  have hstore := exec_receiveSignature (P := samplePlatform) (p := p) (i := 0)
    (k := (sampleKey 1000).getPublicKeys) rfl hmessage hverify
  rw [hfin, hindex'] at hstore
  rw [show [Event.listen, .create, sampleLast s] = [.listen, .create] ++ [sampleLast s] from rfl,
    Machine.run_concat, sampleParty, run_listen_create]
  change ((handle samplePlatform (sampleLast s)).exec p).2 = _
  unfold sampleLast
  rw [handle, Act.exec_get_bind, if_pos (show p.listening = true from rfl)]
  unfold ProtocolSign.received
  rw [Act.exec_bind, exec_verifyAndStore hindex rfl hne, if_pos hN, hstore]
  dsimp only
  rw [Act.exec_get_bind, sendRounds_halted (by simp)]
  rfl

theorem sampleAbort_next (c : SigmaContract) {s : SigmaSignature}
    (hs : ∀ signer : SigmaSigner, signer.Agrees (sampleKey 1002) (sampleKey 1002).getPublicKeys →
      signer.verify sha256 (getBytes "ABORT") s = .ok true) :
    ((machine samplePlatform).next (sampleDeaf c) (sampleAbort s)).contract.status = .cancelled := by
  have hauth : ProtocolResolve.authentic samplePlatform
      ((sampleDeaf c).setTrentK (sampleDeaf c).trentK)
      ⟨.ok false, .ok "aborted", .ok "ABORT", fun _ => .ok (some s), none⟩ = .ok true := by
    refine hs _ ⟨?_, ?_⟩
    · exact fun r hr => absurd hr (by simp [setTrentK, sampleDeaf, created, setContract])
    · rintro r ⟨⟩
      rfl
  have hphase : (sampleDeaf c).phase ≠ .choosing := show Phase.created ≠ .choosing by decide
  have hheard : (sampleDeaf c).Hears samplePlatform
      ⟨.ok false, .ok "aborted", .ok "ABORT", fun _ => .ok (some s), none⟩
      (sampleKey 1002).publicKey := ⟨hphase, rfl, rfl, hauth⟩
  change ((handle samplePlatform (sampleAbort s)).exec _).2.contract.status = _
  unfold sampleAbort
  rw [handle, Act.exec_get_bind, if_pos hphase, answered_heard hheard]
  unfold ProtocolResolve.verdict
  rw [Act.exec_ok_bind, if_pos (Or.inl rfl), exec_aborted, stop_contract, setStatus_status]

/-- The first party's clear signature finalizes the contract of the second, and the abort
that the first party asked for cancels it. -/
theorem abort_after_final : ∃ s s',
    SigmaSigner.sign sha256
      ⟨some (sampleKey 1002).getPublicKeys, some (sampleKey 1001).getPublicKeys⟩ (sampleKey 1000)
      SigmaContract.sampleContract.getHashableData 7 8 ⟨1, 2, 3, 4, 5, 6⟩ = .ok s ∧
    SigmaSigner.sign sha256
      ⟨some (sampleKey 1002).getPublicKeys, some (sampleKey 1001).getPublicKeys⟩ (sampleKey 1002)
      (getBytes "ABORT") 7 8 ⟨1, 2, 3, 4, 5, 6⟩ = .ok s' ∧
    ((machine samplePlatform).run sampleParty [.listen, .create, sampleLast s]).contract.status
      = .finalized ∧
    ((machine samplePlatform).run sampleParty
      [.listen, .create, sampleLast s, sampleAbort s']).contract.status = .cancelled ∧
    ¬ (machine samplePlatform).Along (KeepsFinal samplePlatform sampleParty) sampleParty
      [.listen, .create, sampleLast s, sampleAbort s'] := by
  obtain ⟨s, hs, hacc⟩ := sign_accepted sha256
    (sampleKey_registered (x := 1000) 1002 (by decide +kernel)) (sampleKey_owned 1000)
    (sampleKey_valid 1001) SigmaContract.sampleContract.getHashableData 7 8 ⟨1, 2, 3, 4, 5, 6⟩
  obtain ⟨s', hs', hacc'⟩ := sign_accepted sha256
    (sampleKey_registered (x := 1002) 1002 (by decide +kernel)) (sampleKey_owned 1002)
    (sampleKey_valid 1001) (getBytes "ABORT") 7 8 ⟨1, 2, 3, 4, 5, 6⟩
  have hfinal : ((machine samplePlatform).run sampleParty
      [.listen, .create, sampleLast s]).contract.status = .finalized := by
    rw [sampleLast_next hacc]
    rfl
  have hcancel : ((machine samplePlatform).next ((machine samplePlatform).run sampleParty
      [.listen, .create, sampleLast s]) (sampleAbort s')).contract.status = .cancelled := by
    rw [sampleLast_next hacc]
    exact sampleAbort_next _ hacc'
  refine ⟨s, s', hs, hs', hfinal, ?_, ?_⟩
  · rw [show [Event.listen, .create, sampleLast s, sampleAbort s']
      = [.listen, .create, sampleLast s] ++ [sampleAbort s'] from rfl, Machine.run_concat]
    exact hcancel
  · intro h
    have hkeeps := (h [.listen, .create, sampleLast s] (sampleAbort s') [] rfl trivial).1 hfinal
    rw [hcancel] at hkeeps
    exact absurd hkeeps (by decide)

end Party

end SXP.Sigma
