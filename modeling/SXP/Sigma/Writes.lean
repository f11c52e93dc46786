import SXP.Sigma.Party
import Mathlib.Logic.Relation

/-!
# What a party writes

Every event a party handles is a chain of single writes, and `Writes` lists
them with the condition under which the code makes each.  A promise of another
party is stored with an `origin`, which is what the environment knows of the
message it came with.  An exception cuts a chain short, so nothing has to be
said about exceptions after `handle_writes`.
-/

namespace SXP.Sigma

open SXP.Lib SXP.Lib.Java SXP.Lib.Text Relation

namespace Party

inductive Writes (P : Platform) (origin : ℤ → ℕ → Prop) : Party → Party → Prop where
  | listen (p : Party) (h : p.phase = .choosing) :
      Writes P origin p { p.setStatus .signing with
        phase := .listening, signer := ⟨some p.trentK, none⟩ }
  | create (p : Party) (h : p.phase = .listening) :
      Writes P origin p { p with
        phase := .created, round := 1, roundReceived := fun _ _ => none, listening := true }
  | start (p : Party) (h : p.phase = .created) : Writes P origin p { p with phase := .running }
  | wish (p : Party) (w : Wish) :
      Writes P origin p (p.setContract { p.contract with wish := w })
  | status (p : Party) (st : Status) (h : st ≠ .signing) : Writes P origin p (p.setStatus st)
  | signature (p : Party) (k : ElGamalKey) (s : SigmaSignature) :
      Writes P origin p (p.setContract (p.contract.addSignature P.hash (some k) s).2)
  | deaf (p : Party) : Writes P origin p { p with listening := false }
  | signer (p : Party) (s : SigmaSigner) : Writes P origin p { p with signer := s }
  | promise (p : Party) (k : ℤ) (i : ℕ) (o : OrClause) (horigin : origin k i)
      (hnone : p.roundReceived k i = none)
      (hv : o.verifies P.hash (p.contract.roundData k) = .ok true) :
      Writes P origin p (p.setPromise k i o)
  | own (p : Party) (i : ℕ) (k : ElGamalKey) (nonce : ℤ) (d : PCS.Draws) (o : OrClause)
      (hi : p.contract.parties[i]? = some k) (hk : k.publicKey = p.key.publicKey)
      (ho : PCS.getPcs P.hash p.key p.trentK (p.contract.roundData p.round) k nonce d = .ok o) :
      Writes P origin p (p.setPromise p.round i o)
  | signing (p : Party) (content : List (ℤ × Payload)) (h : p.signs = true) :
      Writes P origin p (p.send (.signing p.round content))
  | request (p : Party) (text : String) (s : SigmaSignature) (h : p.signs = true)
      (hst : p.contract.status = .resolving) :
      Writes P origin p (p.send (.request (p.round - 1) text s))
  | next (p : Party) (hsigns : p.signs = true) (hr : p.round ≤ p.N + 1)
      (hc : p.claimFormed = true) (hst : p.contract.status = .signing) :
      Writes P origin p { p with round := p.round + 1 }

abbrev Evolves (P : Platform) (origin : ℤ → ℕ → Prop) : Party → Party → Prop :=
  ReflTransGen (Writes P origin)

/-- A chain of writes none of which sends a signing message. -/
abbrev Silent (P : Platform) (origin : ℤ → ℕ → Prop) : Party → Party → Prop :=
  ReflTransGen fun p p' => Writes P origin p p' ∧
    ∀ round content, .signing round content ∈ p'.sent → .signing round content ∈ p.sent

variable {P : Platform} {origin : ℤ → ℕ → Prop} {p p' : Party}

theorem Writes.silent (h : Writes P origin p p') (hsent : p'.sent = p.sent) : Silent P origin p p' :=
  ReflTransGen.single ⟨h, fun _ _ hmem => hsent ▸ hmem⟩

theorem Silent.evolves (h : Silent P origin p p') : Evolves P origin p p' :=
  ReflTransGen.mono (fun _ _ hw => hw.1) _ _ h

/-- **What every write keeps holds after a chain of writes.** -/
theorem Evolves.keeps {I : Party → Prop} (hstep : ∀ {p p'}, Writes P origin p p' → I p → I p')
    (h : Evolves P origin p p') (hp : I p) : I p' := by
  induction h with
  | refl => exact hp
  | tail _ hw ih => exact hstep hw ih

/-! ### What is never written -/

structure Same (p p' : Party) : Prop where
  key : p'.key = p.key
  trentK : p'.trentK = p.trentK
  parties : p'.contract.parties = p.contract.parties
  clauses : p'.contract.clauses = p.contract.clauses
  contractTrentK : p'.contract.trentK = p.contract.trentK

theorem Same.trans {p'' : Party} (h : Same p p') (h' : Same p' p'') : Same p p'' :=
  ⟨h'.key.trans h.key, h'.trentK.trans h.trentK, h'.parties.trans h.parties,
    h'.clauses.trans h.clauses, h'.contractTrentK.trans h.contractTrentK⟩

theorem Same.roundData (h : Same p p') (k : ℤ) : p'.contract.roundData k = p.contract.roundData k := by
  rw [SigmaContract.roundData, SigmaContract.roundData,
    SigmaContract.getHashableData_congr h.parties h.clauses]

theorem Same.N (h : Same p p') : p'.N = p.N := congrArg List.length h.parties

theorem Same.indexOf (h : Same p p') (k : ℤ) : p'.indexOf k = p.indexOf k := by
  rw [Party.indexOf, Party.indexOf, h.parties]

theorem Writes.same (h : Writes P origin p p') : Same p p' := by
  cases h with
  | signature k s =>
    obtain ⟨signatures, status, heq, -⟩ := p.contract.addSignature_eq P.hash (some k) s
    rw [heq]
    exact ⟨rfl, rfl, rfl, rfl, rfl⟩
  | _ => exact ⟨rfl, rfl, rfl, rfl, rfl⟩

theorem Evolves.same (h : Evolves P origin p p') : Same p p' := by
  induction h with
  | refl => exact ⟨rfl, rfl, rfl, rfl, rfl⟩
  | tail _ hw ih => exact ih.trans hw.same

theorem Writes.signs (h : Writes P origin p p') (hs : p.signs = true) : p'.signs = true := by
  cases h with
  | listen h => rw [Party.signs, h] at hs; exact absurd hs (by decide)
  | create h => rw [Party.signs, h] at hs; exact absurd hs (by decide)
  | start h => rfl
  | _ => exact hs

theorem Evolves.signs (h : Evolves P origin p p') (hs : p.signs = true) : p'.signs = true :=
  h.keeps Writes.signs hs

theorem Writes.phase (h : Writes P origin p p') (hp : p.phase ≠ .choosing) : p'.phase ≠ .choosing := by
  cases h with
  | listen h => exact absurd h hp
  | create h => simp
  | start h => simp
  | _ => exact hp

theorem Evolves.phase (h : Evolves P origin p p') (hp : p.phase ≠ .choosing) :
    p'.phase ≠ .choosing :=
  h.keeps Writes.phase hp

/-- The listener on Trent is set and the status is not `SIGNING`, so it will not be again. -/
structure Halted (p : Party) : Prop where
  phase : p.phase ≠ .choosing
  status : p.contract.status ≠ .signing

theorem Writes.halted (h : Writes P origin p p') (hp : p.Halted) : p'.Halted := by
  refine ⟨h.phase hp.phase, ?_⟩
  cases h with
  | listen h => exact absurd h hp.phase
  | status st h => exact h
  | signature k s =>
    obtain ⟨signatures, status, heq, hst⟩ := p.contract.addSignature_eq P.hash (some k) s
    rw [heq]
    rcases hst with rfl | rfl
    · exact hp.status
    · simp
  | _ => exact hp.status

theorem Evolves.halted (h : Evolves P origin p p') (hp : p.Halted) : p'.Halted :=
  h.keeps Writes.halted hp

/-! ### Calls -/

theorem addSignature_writes (k : ElGamalKey) (s : SigmaSignature) :
    Silent P origin p ((addSignature P k s).exec p).2 := by
  unfold addSignature
  rw [Act.exec_get_bind, Act.exec_modify_bind, Act.exec_lift]
  exact (Writes.signature p k s).silent rfl

theorem stop_writes (p : Party) : Silent P origin p p.stop := by
  unfold stop
  split
  · exact (Writes.deaf p).silent rfl
  · exact ReflTransGen.refl

/-- A status other than `SIGNING` is set, and the listener of the signing step removed. -/
theorem settle_writes {st : Status} (h : st ≠ .signing) : Silent P origin p (p.setStatus st).stop :=
  (Writes.status p st h |>.silent rfl).trans (stop_writes _)

theorem resolve_sendMessage_writes (h : p.signs = true) (d : SignDraws) :
    Silent P origin p ((ProtocolResolve.sendMessage P d).exec p).2 := by
  unfold ProtocolResolve.sendMessage
  simp only [Act.exec_modify_bind, Act.exec_get_bind]
  generalize hp : (p.setStatus .resolving).stop = q
  have hq : Silent P origin p q := hp ▸ settle_writes (by decide)
  have hst : q.contract.status = .resolving := by
    rw [← hp, stop]
    split <;> rfl
  have hround : (p.setStatus .resolving).getRound = q.round := by
    have hs : (p.setStatus .resolving).signs = true := h
    rw [getRound, if_pos hs, ← hp, stop, if_pos hs]
  rw [hround]
  refine hq.trans ?_
  have hsigner : Silent P origin q (q.setReceiverK q.trentK) :=
    (Writes.signer q ⟨q.signer.trentK, some q.trentK⟩).silent rfl
  apply Act.after_lift hsigner
  intro claimK _
  apply Act.after_lift hsigner
  intro sigClaimK _
  rw [Act.exec_modify]
  refine hsigner.tail ⟨.request _ claimK sigClaimK (hq.evolves.signs h) hst, ?_⟩
  intro round content hmem
  exact (List.mem_append.mp hmem).resolve_right (by simp)

theorem addResolved_writes (round : ℤ) (si : Option SigmaSignature × ℕ) :
    Silent P origin p ((ProtocolResolve.addResolved P round si).exec p).2 := by
  unfold ProtocolResolve.addResolved
  rw [Act.exec_get_bind]
  apply Act.after_lift ReflTransGen.refl
  intro k _
  rw [Act.exec_modify_bind, Act.exec_get_bind]
  have hsigner : Silent P origin p (p.setReceiverK k) :=
    (Writes.signer p ⟨p.signer.trentK, some k⟩).silent rfl
  apply Act.after_lift hsigner
  intro s _
  apply Act.after_lift hsigner
  intro b _
  cases b with
  | false => exact hsigner
  | true => exact hsigner.trans (addSignature_writes k s)

theorem resolved_writes (sigSign : Option (List (Option SigmaSignature))) :
    Silent P origin p ((ProtocolResolve.resolved P sigSign).exec p).2 := by
  unfold ProtocolResolve.resolved
  rw [Act.exec_get_bind]
  apply Act.after_lift ReflTransGen.refl
  intro l _
  apply Act.keeps_bind (R := Silent P origin) (fun _ _ _ => ReflTransGen.trans)
  · exact Act.keeps_forM (R := Silent P origin) (fun _ => ReflTransGen.refl)
      (fun _ _ _ => ReflTransGen.trans) (fun _ _ _ => addResolved_writes _ _) p
  · intro _ _
    rw [Act.exec_get_bind]
    apply Act.after_lift ReflTransGen.refl
    intro b _
    cases b with
    | false => exact ReflTransGen.refl
    | true => exact settle_writes (by decide)

theorem verdict_writes (a : TrentAnswer) :
    Silent P origin p ((ProtocolResolve.verdict P a).exec p).2 := by
  unfold ProtocolResolve.verdict
  apply Act.after_lift ReflTransGen.refl
  intro kind _
  split
  · exact settle_writes (by decide)
  · split
    · exact resolved_writes _
    · exact ReflTransGen.refl

theorem answered_writes (a : TrentAnswer) (senderId : ℤ) :
    Silent P origin p ((ProtocolResolve.answered P a senderId).exec p).2 := by
  unfold ProtocolResolve.answered
  rw [Act.exec_get_bind]
  by_cases hs : senderId = p.trentK.publicKey
  · rw [if_pos hs]
    apply Act.after_lift ReflTransGen.refl
    intro dishonest _
    cases dishonest with
    | true => exact ReflTransGen.refl
    | false =>
      have hsigner : Silent P origin p (p.setTrentK p.trentK) :=
        (Writes.signer p ⟨some p.trentK, p.signer.receiverK⟩).silent rfl
      simp only [Bool.false_eq_true, if_false, Act.exec_modify_bind, Act.exec_get_bind]
      apply Act.after_lift hsigner
      intro b _
      cases b with
      | false => exact hsigner
      | true => exact hsigner.trans (verdict_writes a)
  · rw [if_neg hs]
    exact ReflTransGen.refl

theorem payload_writes {i : ℕ} {k : ElGamalKey} (hi : p.contract.parties[i]? = some k) (d : Draws) :
    Silent P origin p ((ProtocolSign.payload P d (k, i)).exec p).2 := by
  unfold ProtocolSign.payload
  rw [Act.exec_get_bind]
  dsimp only
  by_cases hr : p.round = p.N + 2
  · rw [if_pos hr]
    apply Act.after_lift ReflTransGen.refl
    intro s _
    by_cases hk : (k.publicKey == p.key.publicKey) = true
    · simp only [hk, if_true]
      apply Act.keeps_bind (R := Silent P origin) (fun _ _ _ => ReflTransGen.trans)
        (addSignature_writes k s)
      intro _ _
      exact ReflTransGen.refl
    · simp only [hk]
      exact ReflTransGen.refl
  · rw [if_neg hr]
    apply Act.after_lift ReflTransGen.refl
    intro o ho
    by_cases hk : (k.publicKey == p.key.publicKey) = true
    · simp only [hk, if_true]
      exact (Writes.own p i k _ _ o hi (beq_iff_eq.mp hk) ho).silent rfl
    · simp only [hk]
      exact ReflTransGen.refl

theorem payloads_writes (p : Party) (d : Draws) :
    Silent P origin p ((p.contract.parties.zipIdx.mapM (ProtocolSign.payload P d)).exec p).2 := by
  -- the parties stay the same throughout the loop over them
  refine Act.keeps_mapM
    (R := fun q q' : Party => q.contract.parties = p.contract.parties → Silent P origin q q')
    (fun _ _ => ReflTransGen.refl) ?_ ?_ p rfl
  · intro q q' q'' h h' hq
    exact (h hq).trans (h' ((h hq).evolves.same.parties.trans hq))
  · intro ki hki q hq
    refine payload_writes ?_ d
    rw [hq]
    exact List.mem_zipIdx_iff_getElem?.mp hki

theorem sign_sendMessage_writes (h : p.signs = true) (d : Draws) :
    Evolves P origin p ((ProtocolSign.sendMessage P d).exec p).2 := by
  unfold ProtocolSign.sendMessage
  rw [Act.exec_get_bind]
  by_cases hw : p.contract.wish = .refuse
  · rw [if_pos hw]
    exact (resolve_sendMessage_writes h d.resolve).evolves
  · rw [if_neg hw]
    have hloop : Evolves P origin p
        ((p.contract.parties.zipIdx.mapM (ProtocolSign.payload P d)).exec p).2 :=
      (payloads_writes p d).evolves
    apply Act.keeps_bind (R := Evolves P origin) (fun _ _ _ => ReflTransGen.trans) hloop
    intro content _
    rw [Act.exec_get_bind]
    apply Act.after_lift ReflTransGen.refl
    intro i _
    exact ReflTransGen.single (.signing _ content (hloop.signs h))

theorem receiveSignature_writes (i : ℕ) (message : SignMessage) :
    Silent P origin p ((ProtocolSign.receiveSignature P i message).exec p).2 := by
  unfold ProtocolSign.receiveSignature
  rw [Act.exec_get_bind]
  apply Act.after_lift ReflTransGen.refl
  intro signature _
  cases signature with
  | none => exact ReflTransGen.refl
  | some s =>
    dsimp only
    apply Act.after_lift ReflTransGen.refl
    intro b _
    cases b with
    | false => exact ReflTransGen.refl
    | true =>
      simp only [if_true]
      apply Act.after_lift ReflTransGen.refl
      intro k _
      apply Act.keeps_bind (R := Silent P origin) (fun _ _ _ => ReflTransGen.trans)
        (addSignature_writes k s)
      intro _ _
      rw [Act.exec_get_bind]
      apply Act.after_lift ReflTransGen.refl
      intro b _
      cases b with
      | false => exact ReflTransGen.refl
      | true =>
        simp only [if_true]
        apply Act.after_lift ReflTransGen.refl
        intro _ _
        rw [Act.exec_modify_bind, Act.exec_modify]
        exact ((Writes.status _ .finalized (by decide)).silent rfl).trans ((Writes.deaf _).silent rfl)

theorem receivePromise_writes {i : ℕ} {k : ℤ} (h : origin k i) (message : SignMessage) :
    Silent P origin p ((ProtocolSign.receivePromise P i k message).exec p).2 := by
  rcases receivePromise_state (P := P) p i k message with hp | ⟨o, -, hnone, -, hv, hp⟩
  · rw [hp]
  · rw [hp]
    exact (Writes.promise p k i o h hnone hv).silent rfl

/-- The promises of a message are stored under the round and the sender it names. -/
theorem verifyAndStoreSignature_writes {message : SignMessage} {pubK : ℤ}
    (h : ∀ k i, message.round = .ok k → p.indexOf pubK = .ok i → pubK ≠ p.key.publicKey →
      origin k i) :
    Silent P origin p ((ProtocolSign.verifyAndStoreSignature P message pubK).exec p).2 := by
  unfold ProtocolSign.verifyAndStoreSignature
  rw [Act.exec_get_bind]
  apply Act.after_lift ReflTransGen.refl
  intro i hi
  apply Act.after_lift ReflTransGen.refl
  intro k hk
  split
  · exact ReflTransGen.refl
  · rename_i hne
    split
    · exact receiveSignature_writes i message
    · exact receivePromise_writes (h k i hk hi hne) message

theorem sendRounds_writes (h : p.signs = true) (d : Draws) (left : ℕ) :
    Evolves P origin p ((ProtocolSign.sendRounds P d left).exec p).2 := by
  induction left generalizing p with
  | zero => exact ReflTransGen.refl
  | succ left ih =>
    rw [ProtocolSign.sendRounds, Act.exec_get_bind]
    split
    · rename_i hc
      obtain ⟨hr, hformed, hst⟩ := hc
      rw [Act.exec_modify_bind]
      refine ReflTransGen.head (.next p h hr hformed hst) ?_
      have hsend : Evolves P origin { p with round := p.round + 1 }
          ((ProtocolSign.sendMessage P d).exec { p with round := p.round + 1 }).2 :=
        sign_sendMessage_writes (p := { p with round := p.round + 1 }) h d
      apply Act.keeps_bind (R := Evolves P origin) (fun _ _ _ => ReflTransGen.trans) hsend
      intro _ _
      exact ih (hsend.signs h)
    · exact ReflTransGen.refl

theorem received_writes (hs : p.signs = true) {message : SignMessage} {senderId : ℤ}
    (h : ∀ k i, message.round = .ok k → p.indexOf senderId = .ok i → senderId ≠ p.key.publicKey →
      origin k i) (d : Draws) :
    Evolves P origin p ((ProtocolSign.received P message senderId d).exec p).2 := by
  unfold ProtocolSign.received
  have hstore := (verifyAndStoreSignature_writes (P := P) h).evolves
  apply Act.keeps_bind (R := Evolves P origin) (fun _ _ _ => ReflTransGen.trans) hstore
  intro _ _
  rw [Act.exec_get_bind]
  exact sendRounds_writes (hstore.signs hs) d _

def Ready (p : Party) : Prop := p.listening = true → p.signs = true

theorem Writes.ready (h : Writes P origin p p') (hp : p.Ready) : p'.Ready := by
  intro hl
  cases h with
  | listen h =>
    have hs := hp hl
    rw [Party.signs, h] at hs
    exact absurd hs (by decide)
  | create h => rfl
  | start h => rfl
  | deaf => exact absurd hl (by simp)
  | _ => exact hp hl

theorem Evolves.ready (h : Evolves P origin p p') (hp : p.Ready) : p'.Ready :=
  h.keeps Writes.ready hp

/-- What the environment knows of the promises of an event. -/
def Brings (origin : ℤ → ℕ → Prop) (p : Party) (e : Event) : Prop :=
  ∀ message senderId d, e = .receive message senderId d → ∀ k i, message.round = .ok k →
    p.indexOf senderId = .ok i → senderId ≠ p.key.publicKey → origin k i

/-- What an event does to a party. -/
inductive Takes (P : Platform) (p : Party) : Event → Party → Prop
  | ignored (e : Event) : Takes P p e p
  | listen (h : p.phase = .choosing) :
      Takes P p .listen { p.setStatus .signing with
        phase := .listening, signer := ⟨some p.trentK, none⟩ }
  | create (h : p.phase = .listening) :
      Takes P p .create { p with
        phase := .created, round := 1, roundReceived := fun _ _ => none, listening := true }
  | start (d : Draws) (h : p.phase = .created) :
      Takes P p (.start d) ((ProtocolSign.sendMessage P d).exec { p with phase := .running }).2
  | receive (message : SignMessage) (senderId : ℤ) (d : Draws) (h : p.listening = true) :
      Takes P p (.receive message senderId d)
        ((ProtocolSign.received P message senderId d).exec p).2
  | answer (a : TrentAnswer) (senderId : ℤ) (h : p.phase ≠ .choosing) :
      Takes P p (.answer a senderId) ((ProtocolResolve.answered P a senderId).exec p).2
  | resolve (d : SignDraws) (h : p.signs = true) :
      Takes P p (.resolve d) ((ProtocolResolve.sendMessage P d).exec p).2
  | setWish (w : Wish) : Takes P p (.setWish w) (p.setContract { p.contract with wish := w })

theorem takes_next (p : Party) (e : Event) : Takes P p e ((machine P).next p e) := by
  change Takes P p e ((handle P e).exec p).2
  cases e with
  | setWish w => exact .setWish w
  | _ =>
    rw [handle, Act.exec_get_bind]
    split
    · rename_i h
      first
        | exact .listen h
        | exact .create h
        | exact .start _ h
        | exact .receive _ _ _ h
        | exact .answer _ _ h
        | exact .resolve _ h
    · exact .ignored _

/-- **Every event is a chain of writes.** -/
theorem handle_writes (hp : p.Ready) (e : Event) (h : Brings origin p e) :
    Evolves P origin p ((machine P).next p e) := by
  have htakes := takes_next (P := P) p e
  generalize (machine P).next p e = p' at htakes ⊢
  cases htakes with
  | ignored => exact ReflTransGen.refl
  | listen hphase => exact ReflTransGen.single (.listen p hphase)
  | create hphase => exact ReflTransGen.single (.create p hphase)
  | start d hphase => exact (sign_sendMessage_writes rfl d).head (.start p hphase)
  | receive message senderId d hl =>
    exact received_writes (hp hl) (h message senderId d rfl) d
  | answer a senderId => exact (answered_writes a senderId).evolves
  | resolve d hs => exact (resolve_sendMessage_writes hs d).evolves
  | setWish w => exact ReflTransGen.single (.wish p w)

end Party

end SXP.Sigma
