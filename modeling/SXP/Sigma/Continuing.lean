import SXP.Sigma.Kept
import SXP.Sigma.Statuses

/-!
# Events that go on signing

Two events can send promises and signatures, or finalize a contract without Trent: the start of
the signing step, and a message that its listener receives.  `stays_iff` gives the cases in which
they do.
-/

namespace SXP.Sigma

open SXP.Lib SXP.Lib.Java SXP.Lib.Text

def Outgoing.isSigning : Outgoing → Bool
  | .signing _ _ => true
  | .request _ _ _ => false

namespace Party

variable {P : Platform}

def messages (p : Party) : List Outgoing := p.sent.filter Outgoing.isSigning

/-- The message of the round can be made and is sent, or the own signature in it finalizes the
contract. -/
def SendsRound (P : Platform) (d : Draws) (p : Party) : Prop :=
  p.contract.wish ≠ .refuse ∧
    ((∃ content q, (p.contract.parties.zipIdx.mapM (ProtocolSign.payload P d)).exec p =
        (.ok content, q) ∧ ∃ i, p.indexOf p.key.publicKey = .ok i) ∨
      (p.contract.status ≠ .finalized ∧
        ((p.contract.parties.zipIdx.mapM (ProtocolSign.payload P d)).exec p).2.contract.status =
          .finalized))

def RoundReady (p : Party) : Prop :=
  p.round ≤ p.N + 1 ∧ p.claimFormed = true ∧ p.contract.status = .signing

/-- The start of the signing step, or a message that completes the signatures or a round. -/
def Proceeds (P : Platform) (p : Party) : Event → Prop
  | .start d => p.phase = .created ∧ SendsRound P d { p with phase := .running }
  | .receive message senderId d => p.listening = true ∧
      ((p.contract.status ≠ .finalized ∧ p.Finalizes P message senderId) ∨
        ∃ q, (ProtocolSign.verifyAndStoreSignature P message senderId).exec p = (.ok (), q) ∧
          q.RoundReady ∧ SendsRound P d { q with round := q.round + 1 })
  | _ => False

/-- A promise or signature has been sent, or the contract has become final. -/
def GoesOn (p p' : Party) : Prop :=
  p'.messages ≠ p.messages ∨ (p.contract.status ≠ .finalized ∧ p'.contract.status = .finalized)

/-! ### What is sent -/

theorem kept_messages : Kept P fun p p' => p'.messages = p.messages where
  refl p := rfl
  trans p p' p'' h h' := h'.trans h
  signature p k s := rfl
  status p st _ := rfl
  deaf p := rfl
  signer p s := rfl
  promise p k i o := rfl
  request p round text s := by
    rw [messages, send, List.filter_append]
    exact List.append_nil _

theorem sending_messages : Sending P fun p p' => p.messages <+: p'.messages where
  refl p := List.prefix_rfl
  trans p p' p'' h h' := h.trans h'
  signature p k s := List.prefix_rfl
  status p st _ := List.prefix_rfl
  deaf p := List.prefix_rfl
  signer p s := List.prefix_rfl
  promise p k i o := List.prefix_rfl
  request p round text s := (kept_messages.request (P := P) p round text s) ▸ List.prefix_rfl
  signing p round content := by
    rw [messages, messages, send, List.filter_append]
    exact List.prefix_append _ _
  next p := List.prefix_rfl

theorem sending_wish : Sending P fun p p' => p'.contract.wish = p.contract.wish where
  refl p := rfl
  trans p p' p'' h h' := h'.trans h
  signature p k s := by
    obtain ⟨signatures, status, heq, -⟩ := p.contract.addSignature_eq P.hash (some k) s
    rw [heq]
    rfl
  status p st _ := rfl
  deaf p := rfl
  signer p s := rfl
  promise p k i o := rfl
  request p round text s := rfl
  signing p round content := rfl
  next p := rfl

theorem kept_parties : Kept P fun p p' =>
    p'.key = p.key ∧ p'.contract.parties = p.contract.parties where
  refl p := ⟨rfl, rfl⟩
  trans p p' p'' h h' := ⟨h'.1.trans h.1, h'.2.trans h.2⟩
  signature p k s := by
    obtain ⟨signatures, status, heq, -⟩ := p.contract.addSignature_eq P.hash (some k) s
    rw [heq]
    exact ⟨rfl, rfl⟩
  status p st _ := ⟨rfl, rfl⟩
  deaf p := ⟨rfl, rfl⟩
  signer p s := ⟨rfl, rfl⟩
  promise p k i o := ⟨rfl, rfl⟩
  request p round text s := ⟨rfl, rfl⟩

theorem messages_send_ne {p p' : Party} {round : ℤ} {content : List (ℤ × Payload)}
    (h : (p.send (.signing round content)).messages <+: p'.messages) :
    p'.messages ≠ p.messages := by
  intro heq
  rw [heq] at h
  have hlength := h.length_le
  rw [messages, messages, send, List.filter_append, List.length_append] at hlength
  simp [Outgoing.isSigning] at hlength

theorem resolve_status (d : SignDraws) (p : Party) :
    ((ProtocolResolve.sendMessage P d).exec p).2.contract.status = .resolving := by
  unfold ProtocolResolve.sendMessage
  simp only [Act.exec_modify_bind, Act.exec_get_bind]
  have hstop : ((p.setStatus .resolving).stop.setReceiverK
      (p.setStatus .resolving).stop.trentK).contract.status = .resolving := by
    rw [setReceiverK_contract, stop_contract, setStatus_status]
  apply Act.after_lift (Q := fun q : Party => q.contract.status = .resolving) hstop
  intro claimK _
  apply Act.after_lift (Q := fun q : Party => q.contract.status = .resolving) hstop
  intro sigClaimK _
  rw [Act.exec_modify]
  exact hstop

/-! ### One message -/

/-- What becomes of the message of a round: it is sent, or something throws, or it is a request. -/
inductive Made (P : Platform) (d : Draws) (p : Party) : Java Unit × Party → Prop
  | sent {q : Party} (round : ℤ) (content : List (ℤ × Payload)) (hq : q.messages = p.messages)
      (h : SendsRound P d p) : Made P d p (.ok (), q.send (.signing round content))
  | thrown {q : Party} (e : JavaException) (hq : q.messages = p.messages)
      (h : SendsRound P d p ↔
        p.contract.status ≠ .finalized ∧ q.contract.status = .finalized) :
      Made P d p (.error e, q)
  | requested {q : Party} (hq : q.messages = p.messages) (hst : q.contract.status = .resolving)
      (h : ¬ SendsRound P d p) : Made P d p (.ok (), q)

theorem sendMessage_made (d : Draws) (p : Party) :
    Made P d p ((ProtocolSign.sendMessage P d).exec p) := by
  unfold ProtocolSign.sendMessage
  rw [Act.exec_get_bind]
  by_cases hwish : p.contract.wish = .refuse
  · rw [if_pos hwish]
    have hmessages := kept_messages.answering.resolve_sendMessage (P := P) d.resolve p
    have hstatus := resolve_status (P := P) d.resolve p
    have hnot : ¬ SendsRound P d p := fun h => h.1 hwish
    rcases hexec : (ProtocolResolve.sendMessage P d.resolve).exec p with ⟨e | _, q⟩
    · rw [hexec] at hmessages hstatus
      refine .thrown e hmessages (iff_of_false hnot fun h => ?_)
      exact absurd (hstatus.symm.trans h.2) (by decide)
    · rw [hexec] at hmessages hstatus
      exact .requested hmessages hstatus hnot
  · rw [if_neg hwish, Act.exec_bind]
    have hmessages := kept_messages.payloads (P := P) d p
    have hparties := kept_parties.payloads (P := P) d p
    rcases hexec : (p.contract.parties.zipIdx.mapM (ProtocolSign.payload P d)).exec p
      with ⟨e | content, q⟩
    · rw [hexec] at hmessages
      refine .thrown e hmessages ?_
      unfold SendsRound
      rw [hexec]
      simp [hwish]
    · rw [hexec] at hmessages hparties
      dsimp only at hmessages hparties ⊢
      have hindex : q.indexOf q.key.publicKey = p.indexOf p.key.publicKey := by
        rw [indexOf, indexOf, hparties.1, hparties.2]
      rw [Act.exec_get_bind, hindex]
      rcases hi : p.indexOf p.key.publicKey with e | i
      · rw [Act.exec_error_bind]
        refine .thrown e hmessages ?_
        unfold SendsRound
        rw [hexec, hi]
        simp [hwish]
      · exact .sent q.round content hmessages ⟨hwish, Or.inl ⟨content, q, hexec, i, hi⟩⟩

theorem Made.goesOn_iff {d : Draws} {p : Party} {r : Java Unit × Party} (h : Made P d p r) :
    GoesOn p r.2 ↔ SendsRound P d p := by
  cases h with
  | sent round content hq h =>
    refine iff_of_true (Or.inl ?_) h
    rw [← hq]
    exact messages_send_ne List.prefix_rfl
  | thrown e hq h =>
    rw [h, GoesOn, hq]
    simp
  | requested hq hst h =>
    refine iff_of_false ?_ h
    rw [GoesOn, hq, hst]
    simp

theorem Made.rounds_goesOn_iff {d : Draws} {p : Party} (h : Made P d p
    ((ProtocolSign.sendMessage P d).exec p)) (left : ℕ) :
    GoesOn p ((ProtocolSign.sendMessage P d >>= fun _ => ProtocolSign.sendRounds P d left).exec p).2
      ↔ SendsRound P d p := by
  have hgoes := h.goesOn_iff
  rw [Act.exec_bind]
  generalize (ProtocolSign.sendMessage P d).exec p = r at h hgoes ⊢
  cases h with
  | sent round content hq h =>
    refine iff_of_true (Or.inl ?_) h
    rw [← hq]
    exact messages_send_ne (sending_messages.passing.sendRounds (P := P) d left _)
  | thrown e hq h => exact hgoes
  | requested hq hst h =>
    dsimp only at hgoes ⊢
    rw [sendRounds_halted (by rw [hst]; decide)]
    exact hgoes

/-! ### One event -/

theorem sendRounds_idle {q : Party} (h : ¬ q.RoundReady) (d : Draws) (left : ℕ) :
    (ProtocolSign.sendRounds P d left).exec q = (.ok (), q) := by
  cases left with
  | zero => exact Act.exec_pure _ _
  | succ left =>
    unfold RoundReady at h
    rw [ProtocolSign.sendRounds, Act.exec_get_bind, if_neg h]
    exact Act.exec_pure _ _

theorem sendRounds_ready {q : Party} (h : q.RoundReady) (d : Draws) :
    ∃ left, ProtocolSign.sendRounds P d (q.N + 2 - q.round).toNat = ProtocolSign.sendRounds P d
      (left + 1) ∧ (ProtocolSign.sendRounds P d (left + 1)).exec q =
        (ProtocolSign.sendMessage P d >>= fun _ => ProtocolSign.sendRounds P d left).exec
          { q with round := q.round + 1 } := by
  obtain ⟨left, hleft⟩ : ∃ left, (q.N + 2 - q.round).toNat = left + 1 :=
    Nat.exists_eq_succ_of_ne_zero (by have := h.1; omega)
  refine ⟨left, by rw [hleft], ?_⟩
  rw [ProtocolSign.sendRounds, Act.exec_get_bind, if_pos ⟨h.1, h.2.1, h.2.2⟩, Act.exec_modify_bind]

/-- **When the listener goes on.** -/
theorem received_goesOn_iff {p : Party} (hl : p.listening = true) (message : SignMessage)
    (senderId : ℤ) (d : Draws) :
    GoesOn p ((ProtocolSign.received P message senderId d).exec p).2 ↔
      Proceeds P p (.receive message senderId d) := by
  have hmessages := kept_messages.verifyAndStore (P := P) message senderId p
  have hfinalized := storing_finalized.verifyAndStore (P := P) message senderId p
  have hstatus := fun hp => verifyAndStore_status (P := P) hl hp message senderId
  unfold ProtocolSign.received
  rw [Proceeds, and_iff_right hl, Act.exec_bind]
  rcases hexec : (ProtocolSign.verifyAndStoreSignature P message senderId).exec p
    with ⟨e | _, q⟩
  · rw [hexec] at hmessages hstatus
    dsimp only at hmessages hstatus ⊢
    rw [or_iff_left, GoesOn, or_iff_right (not_not.mpr hmessages)]
    · exact and_congr_right hstatus
    · rintro ⟨q', hq', -⟩
      exact absurd (Prod.mk.inj hq').1 (by simp)
  · rw [hexec] at hmessages hfinalized hstatus
    dsimp only at hmessages hfinalized hstatus ⊢
    rw [Act.exec_get_bind]
    by_cases hready : q.RoundReady
    · have hq : q.contract.status ≠ .finalized := by
        rw [hready.2.2]
        decide
      have hp : p.contract.status ≠ .finalized := fun h => hq (hfinalized h)
      obtain ⟨left, hleft, hrounds⟩ := sendRounds_ready (P := P) hready d
      rw [hleft, hrounds]
      have hmade := (sendMessage_made (P := P) d { q with round := q.round + 1 }).rounds_goesOn_iff
        left
      have hbase : ∀ p', GoesOn p p' ↔ GoesOn { q with round := q.round + 1 } p' := by
        intro p'
        unfold GoesOn
        rw [← hmessages]
        exact or_congr Iff.rfl (and_congr_left fun _ => iff_of_true hp hq)
      rw [hbase, hmade, or_iff_right fun h => hq ((hstatus hp).mpr h.2)]
      constructor
      · exact fun h => ⟨q, rfl, hready, h⟩
      · rintro ⟨q', hq', -, h⟩
        obtain rfl := (Prod.mk.inj hq').2
        exact h
    · rw [sendRounds_idle hready, or_iff_left, GoesOn, or_iff_right (not_not.mpr hmessages)]
      · exact and_congr_right hstatus
      · rintro ⟨q', hq', hready', -⟩
        obtain rfl := (Prod.mk.inj hq').2
        exact hready hready'

/-- What an event should not do.  What Trent answers may finalize the contract. -/
def Stays (P : Platform) (p : Party) : Event → Prop
  | .answer a senderId => ((machine P).next p (.answer a senderId)).messages = p.messages
  | e => ¬ GoesOn p ((machine P).next p e)

/-- **Which events go on.** -/
theorem stays_iff (p : Party) (e : Event) : Stays P p e ↔ ¬ Proceeds P p e := by
  have hidle : ¬ GoesOn p p := fun h => h.elim (fun h => h rfl) fun h => h.1 h.2
  cases e with
  | listen =>
    refine iff_of_true ?_ not_false
    change ¬ GoesOn p ((handle P .listen).exec p).2
    rw [handle, Act.exec_get_bind]
    split
    · rintro (h | ⟨-, h⟩)
      · exact h rfl
      · rw [Act.exec_modify, setStatus_status] at h
        exact absurd h (by decide)
    · exact hidle
  | create =>
    refine iff_of_true ?_ not_false
    change ¬ GoesOn p ((handle P .create).exec p).2
    rw [handle, Act.exec_get_bind]
    split
    · rintro (h | ⟨h, h'⟩)
      · exact h rfl
      · exact h h'
    · exact hidle
  | start d =>
    refine not_congr ?_
    change GoesOn p ((handle P (.start d)).exec p).2 ↔ _
    rw [handle, Act.exec_get_bind, Proceeds]
    split
    · next hphase =>
      rw [Act.exec_modify_bind, and_iff_right hphase]
      exact (sendMessage_made (P := P) d { p with phase := .running }).goesOn_iff
    · next hphase => exact iff_of_false hidle fun h => hphase h.1
  | receive message senderId d =>
    refine not_congr ?_
    change GoesOn p ((handle P (.receive message senderId d)).exec p).2 ↔ _
    rw [handle, Act.exec_get_bind]
    split
    · next hl => exact received_goesOn_iff hl message senderId d
    · next hl => exact iff_of_false hidle fun h => hl h.1
  | answer a senderId =>
    refine iff_of_true ?_ not_false
    change ((handle P (.answer a senderId)).exec p).2.messages = p.messages
    rw [handle, Act.exec_get_bind]
    split
    · exact kept_messages.answering.answered a senderId p
    · rfl
  | resolve d =>
    refine iff_of_true ?_ not_false
    change ¬ GoesOn p ((handle P (.resolve d)).exec p).2
    rw [handle, Act.exec_get_bind]
    split
    · rintro (h | ⟨-, h⟩)
      · exact h (kept_messages.answering.resolve_sendMessage d p)
      · exact absurd ((resolve_status d p).symm.trans h) (by decide)
    · exact hidle
  | setWish w =>
    refine iff_of_true ?_ not_false
    rintro (h | ⟨h, h'⟩)
    · exact h rfl
    · exact h h'

end Party

end SXP.Sigma
