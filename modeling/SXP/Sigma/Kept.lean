import SXP.Sigma.Party

/-!
# What calls of a party keep

A relation that is kept by the single writes of a call is kept by the call.  The structures name
the writes: those that add a signature (`Adding`), those of the resolving step (`Answering`), those
that store a promise as well (`Storing`), and all but the signing messages and the rounds (`Kept`).
The messages and rounds are in `Sending`, and in `Passing` for a relation that has its own account
of requests.
-/

namespace SXP.Sigma

open SXP.Lib SXP.Lib.Java SXP.Lib.Text

namespace Party

variable {P : Platform} {R : Party → Party → Prop}

structure Adding (P : Platform) (R : Party → Party → Prop) : Prop where
  refl : ∀ p, R p p
  trans : ∀ p p' p'', R p p' → R p' p'' → R p p''
  signature : ∀ p k s, R p (p.setContract (p.contract.addSignature P.hash (some k) s).2)
  finalized : ∀ p, R p (p.setStatus .finalized)
  deaf : ∀ p, R p { p with listening := false }

structure Answering (P : Platform) (R : Party → Party → Prop) : Prop extends Adding P R where
  status : ∀ p st, st ≠ .signing → R p (p.setStatus st)
  finalized := fun p => status p .finalized (by decide)
  signer : ∀ p s, R p { p with signer := s }
  request : ∀ p round text s, R p (p.send (.request round text s))

structure Storing (P : Platform) (R : Party → Party → Prop) : Prop extends Adding P R where
  promise : ∀ p k i o, R p (p.setPromise k i o)

structure Kept (P : Platform) (R : Party → Party → Prop) : Prop extends Storing P R where
  status : ∀ p st, st ≠ .signing → R p (p.setStatus st)
  finalized := fun p => status p .finalized (by decide)
  signer : ∀ p s, R p { p with signer := s }
  request : ∀ p round text s, R p (p.send (.request round text s))

structure Sending (P : Platform) (R : Party → Party → Prop) : Prop extends Kept P R where
  signing : ∀ p round content, R p (p.send (.signing round content))
  next : ∀ p, R p { p with round := p.round + 1 }

structure Passing (P : Platform) (R : Party → Party → Prop) : Prop extends Storing P R where
  resolve : ∀ d p, R p ((ProtocolResolve.sendMessage P d).exec p).2
  signing : ∀ p round content, R p (p.send (.signing round content))
  next : ∀ p, R p { p with round := p.round + 1 }

/-! ### Signatures and promises -/

namespace Adding

variable (h : Adding P R)
include h

theorem addSignature (k : ElGamalKey) (s : SigmaSignature) (p : Party) :
    R p ((Party.addSignature P k s).exec p).2 := by
  rw [exec_addSignature]
  exact h.signature p k s

theorem stop (p : Party) : R p p.stop := by
  unfold Party.stop
  split
  · exact h.deaf p
  · exact h.refl p

theorem resolved_end (p : Party) :
    R p ((do
      if ← Act.lift ((← get).contract.isFinalized P.hash) then
        modify fun p => p.setStatus .finalized
        modify Party.stop : Act Party Unit).exec p).2 := by
  rw [Act.exec_get_bind]
  apply Act.after_lift (h.refl p)
  intro b _
  cases b with
  | false => exact h.refl p
  | true => exact h.trans _ _ _ (h.finalized p) (h.stop _)

theorem receiveSignature (i : ℕ) (message : SignMessage) (p : Party) :
    R p ((ProtocolSign.receiveSignature P i message).exec p).2 := by
  unfold ProtocolSign.receiveSignature
  rw [Act.exec_get_bind]
  apply Act.after_lift (h.refl p)
  intro signature _
  cases signature with
  | none => exact h.refl p
  | some s =>
    apply Act.after_lift (h.refl p)
    intro b _
    cases b with
    | false => exact h.refl p
    | true =>
      simp only [if_true]
      apply Act.after_lift (h.refl p)
      intro k _
      apply Act.keeps_bind h.trans (h.addSignature k s p)
      intro _ _
      rw [Act.exec_get_bind]
      apply Act.after_lift (h.refl _)
      intro b _
      cases b with
      | false => exact h.refl _
      | true =>
        simp only [if_true]
        apply Act.after_lift (h.refl _)
        intro _ _
        rw [Act.exec_modify_bind, Act.exec_modify]
        exact h.trans _ _ _ (h.finalized _) (h.deaf _)

end Adding

namespace Storing

variable (h : Storing P R)
include h

theorem receivePromise (i : ℕ) (k : ℤ) (message : SignMessage) (p : Party) :
    R p ((ProtocolSign.receivePromise P i k message).exec p).2 := by
  unfold ProtocolSign.receivePromise
  rw [Act.exec_get_bind]
  split
  · exact h.refl p
  · cases p.roundReceived k i with
    | some o => exact h.refl p
    | none =>
      apply Act.after_lift (h.refl p)
      intro o _
      apply Act.after_lift (h.refl p)
      intro o _
      apply Act.after_lift (h.refl p)
      intro b _
      cases b with
      | false => exact h.refl p
      | true => exact h.promise p k i o

theorem verifyAndStore (message : SignMessage) (pubK : ℤ) (p : Party) :
    R p ((ProtocolSign.verifyAndStoreSignature P message pubK).exec p).2 := by
  unfold ProtocolSign.verifyAndStoreSignature
  rw [Act.exec_get_bind]
  apply Act.after_lift (h.refl p)
  intro i _
  apply Act.after_lift (h.refl p)
  intro k _
  split
  · exact h.refl p
  · split
    · exact h.receiveSignature i message p
    · exact h.receivePromise i k message p

theorem payload (d : Draws) (rk : ElGamalKey × ℕ) (p : Party) :
    R p ((ProtocolSign.payload P d rk).exec p).2 := by
  unfold ProtocolSign.payload
  rw [Act.exec_get_bind]
  dsimp only
  split
  · apply Act.after_lift (h.refl p)
    intro s _
    split
    · exact Act.keeps_bind h.trans (h.addSignature rk.1 s p) fun _ _ => h.refl _
    · exact h.refl p
  · apply Act.after_lift (h.refl p)
    intro o _
    split
    · exact h.promise p _ _ o
    · exact h.refl p

theorem payloads (d : Draws) (p : Party) :
    R p ((p.contract.parties.zipIdx.mapM (ProtocolSign.payload P d)).exec p).2 :=
  Act.keeps_mapM h.refl h.trans (fun rk _ q => h.payload d rk q) p

end Storing

/-! ### The resolving step -/

theorem Kept.answering (h : Kept P R) : Answering P R := { h with }

namespace Answering

variable (h : Answering P R)
include h

theorem settle {st : Status} (hst : st ≠ .signing) (p : Party) : R p (p.setStatus st).stop :=
  h.trans _ _ _ (h.status p st hst) (h.stop _)

theorem resolve_sendMessage (d : SignDraws) (p : Party) :
    R p ((ProtocolResolve.sendMessage P d).exec p).2 := by
  unfold ProtocolResolve.sendMessage
  simp only [Act.exec_modify_bind, Act.exec_get_bind]
  have hq : R p (p.setStatus .resolving).stop := h.settle (by decide) p
  have hsigner := h.trans _ _ _ hq (h.signer _ ⟨(p.setStatus .resolving).stop.signer.trentK,
    some (p.setStatus .resolving).stop.trentK⟩)
  apply Act.after_lift hsigner
  intro claimK _
  apply Act.after_lift hsigner
  intro sigClaimK _
  rw [Act.exec_modify]
  exact h.trans _ _ _ hsigner (h.request _ _ claimK sigClaimK)

theorem addResolved (round : ℤ) (si : Option SigmaSignature × ℕ) (p : Party) :
    R p ((ProtocolResolve.addResolved P round si).exec p).2 := by
  unfold ProtocolResolve.addResolved
  rw [Act.exec_get_bind]
  apply Act.after_lift (h.refl p)
  intro k _
  rw [Act.exec_modify_bind, Act.exec_get_bind]
  have hsigner : R p (p.setReceiverK k) := h.signer p _
  apply Act.after_lift hsigner
  intro s _
  apply Act.after_lift hsigner
  intro b _
  cases b with
  | false => exact hsigner
  | true => exact h.trans _ _ _ hsigner (h.addSignature k s _)

theorem resolved (sigSign : Option (List (Option SigmaSignature))) (p : Party) :
    R p ((ProtocolResolve.resolved P sigSign).exec p).2 := by
  unfold ProtocolResolve.resolved
  rw [Act.exec_get_bind]
  apply Act.after_lift (h.refl p)
  intro l _
  apply Act.keeps_bind h.trans
    (Act.keeps_forM h.refl h.trans (fun si _ q => h.addResolved _ si q) p)
  intro _ _
  exact h.resolved_end _

theorem verdict (a : TrentAnswer) (p : Party) :
    R p ((ProtocolResolve.verdict P a).exec p).2 := by
  unfold ProtocolResolve.verdict
  apply Act.after_lift (h.refl p)
  intro kind _
  split
  · unfold ProtocolResolve.aborted
    rw [Act.exec_modify_bind, Act.exec_modify]
    exact h.settle (by decide) p
  · split
    · exact h.resolved _ p
    · exact h.refl p

theorem answered (a : TrentAnswer) (senderId : ℤ) (p : Party) :
    R p ((ProtocolResolve.answered P a senderId).exec p).2 := by
  unfold ProtocolResolve.answered
  rw [Act.exec_get_bind]
  split
  · apply Act.after_lift (h.refl p)
    intro dishonest _
    cases dishonest with
    | true => exact h.refl p
    | false =>
      simp only [Bool.false_eq_true, if_false, Act.exec_modify_bind, Act.exec_get_bind]
      have hsigner : R p (p.setTrentK p.trentK) := h.signer p _
      apply Act.after_lift hsigner
      intro b _
      cases b with
      | false => exact hsigner
      | true => exact h.trans _ _ _ hsigner (h.verdict a _)
  · exact h.refl p

end Answering

/-! ### Rounds -/

theorem Sending.passing (h : Sending P R) : Passing P R :=
  { h with resolve := h.answering.resolve_sendMessage }

namespace Passing

variable (h : Passing P R)
include h

theorem sendMessage (d : Draws) (p : Party) :
    R p ((ProtocolSign.sendMessage P d).exec p).2 := by
  unfold ProtocolSign.sendMessage
  rw [Act.exec_get_bind]
  split
  · exact h.resolve d.resolve p
  · apply Act.keeps_bind h.trans (h.payloads d p)
    intro content _
    rw [Act.exec_get_bind]
    apply Act.after_lift (h.refl _)
    intro i _
    exact h.signing _ _ content

theorem sendRounds (d : Draws) (left : ℕ) (p : Party) :
    R p ((ProtocolSign.sendRounds P d left).exec p).2 := by
  induction left generalizing p with
  | zero => exact h.refl p
  | succ left ih =>
    rw [ProtocolSign.sendRounds, Act.exec_get_bind]
    split
    · rw [Act.exec_modify_bind]
      refine h.trans _ _ _ (h.next p) ?_
      exact Act.keeps_bind h.trans (h.sendMessage d _) fun _ _ => ih _
    · exact h.refl p

theorem received (message : SignMessage) (senderId : ℤ) (d : Draws) (p : Party) :
    R p ((ProtocolSign.received P message senderId d).exec p).2 := by
  unfold ProtocolSign.received
  apply Act.keeps_bind h.trans (h.verifyAndStore message senderId p)
  intro _ _
  rw [Act.exec_get_bind]
  exact h.sendRounds d _ _

end Passing

end Party

end SXP.Sigma
