import SXP.Sigma.Writes
import SXP.Sigma.Kept
import SXP.Sigma.Promise

/-!
# Whether an answer of Trent is recognised

An answer is checked with the signer of the resolving step.  The key of Trent is
set before the check; the key of the receiver, which the check reads as the key
of whoever signed, is the one that was set last: Trent's after a request, none
before the first, and the one of a party after an answer with signatures has
been worked through (`Opens`).

`genuine_recognised_iff` is the account of all runs.
-/

namespace SXP.Sigma

open SXP.Lib SXP.Lib.Java SXP.Lib.BigInteger SXP.Lib.Text

/-! ### What the key of the receiver decides -/

section

variable {hash : List UInt8 → Digest} {t k r : ElGamalKey} {trentK : Option ElGamalKey}
variable {m : List UInt8} {sign : SigmaSignature}

theorem SigmaSigner.checksReceiver_iff {trentKey : ElGamalKey} {resE : ResEncrypt} :
    SigmaSigner.checksReceiver ⟨trentK, some r⟩ trentKey resE = .ok true ↔
      ∃ n, (ofBytes resE.M >>= fun m => mod m trentKey.p) = .ok n ∧ identityValue r = .ok n := by
  unfold SigmaSigner.checksReceiver identityValue
  simp only [bind_eq_ok, pure_eq, Except.ok.injEq, beq_iff_eq]
  constructor
  · rintro ⟨m, hm, n, hn, data, hdata, n', hn', rfl⟩
    exact ⟨n, ⟨m, hm, hn⟩, data, hdata, hn'⟩
  · rintro ⟨n, ⟨m, hm, hn⟩, data, hdata, hn'⟩
    exact ⟨m, hm, n, hn, data, hdata, n, hn', rfl⟩

/-- **A signature that is accepted as coming from `k`** is accepted as coming from `r` if
both have one identity. -/
theorem SigmaSigner.verify_receiver_iff
    (hk : SigmaSigner.verify hash ⟨trentK, some k⟩ m sign = .ok true) :
    SigmaSigner.verify hash ⟨trentK, some r⟩ m sign = .ok true ↔
      identityValue r = identityValue k := by
  obtain ⟨and0, hacc⟩ := (SigmaSigner.verify_iff hash).mp hk
  obtain ⟨n, hn, hvalue⟩ := SigmaSigner.checksReceiver_iff.mp hacc.receiver
  rw [hvalue, SigmaSigner.verify_iff]
  constructor
  · rintro ⟨and0', hacc'⟩
    obtain rfl : and0 = and0' := Option.some.inj (hacc.first.symm.trans hacc'.first)
    obtain ⟨n', hn', hvalue'⟩ := SigmaSigner.checksReceiver_iff.mp hacc'.receiver
    rw [hvalue', ← hn', hn]
  · intro hr
    exact ⟨and0, hacc.first, SigmaSigner.checksReceiver_iff.mpr ⟨n, hn, hr⟩, hacc.pcs, hacc.rpcs,
      hacc.trent⟩

theorem identityValue_inj {k k' : ElGamalKey} (hk : 10 ^ 124 ≤ k.publicKey)
    (hk' : 10 ^ 124 ≤ k'.publicKey) :
    identityValue k = identityValue k' ↔ getIdentificationData k = getIdentificationData k' := by
  obtain ⟨data, n, hdata, hn, hmag, hlen, -⟩ := identification hk
  obtain ⟨data', n', hdata', hn', hmag', hlen', -⟩ := identification hk'
  rw [identityValue, identityValue, hdata, hdata', ok_bind, ok_bind, hn, hn', Except.ok.injEq,
    Except.ok.injEq]
  constructor
  · intro h
    exact magnitude_inj (hlen.trans hlen'.symm) (by omega)
  · rintro rfl
    omega

/-- A signature is made only under a key that Trent can encrypt the identity of. -/
theorem registered_of_sign (hk : k.Valid) (ht : t.Valid) {r nonce sCce d}
    (h : SigmaSigner.sign hash ⟨some t, some r⟩ k m nonce sCce d = .ok sign) : Registered t k := by
  simp only [SigmaSigner.sign] at h
  obtain ⟨b, hb, h⟩ := bind_eq_ok.mp h
  obtain ⟨e, he, -⟩ := bind_eq_ok.mp h
  have hdigits := digits_of_identification hk.publicKey_nonneg hb
  refine ⟨hk, hdigits, ht, ?_⟩
  intro n hn
  obtain ⟨data, n', hdata, hn', hmag, -⟩ := identification hdigits
  obtain rfl : data = b := Except.ok.inj (hdata.symm.trans hb)
  rw [identityValue, hdata, ok_bind, hn', Except.ok.injEq] at hn
  unfold encryptForContract at he
  split at he
  · exact absurd he (by simp)
  · split at he
    · exact absurd he (by simp)
    · omega

/-- What was signed is accepted by every signer whose keys agree. -/
theorem verify_of_sign (hk : k.Valid) (ho : k.Owned) (ht : t.Valid) (hr : r.Valid) {nonce sCce d}
    (h : SigmaSigner.sign hash ⟨some t, some r⟩ k m nonce sCce d = .ok sign) {s : SigmaSigner}
    (hs : s.Agrees k t) : s.verify hash m sign = .ok true := by
  obtain ⟨sign', hsign, hacc⟩ :=
    sign_accepted hash (registered_of_sign hk ht h) ho hr m nonce sCce d
  rw [h, Except.ok.injEq] at hsign
  rw [hsign]
  exact hacc s hs

end

namespace Party

variable {P : Platform} {p : Party}

/-- Trent has signed the text of the answer for `key`. -/
def Genuine (P : Platform) (T key : ElGamalKey) (a : TrentAnswer) : Prop :=
  ∃ text sign nonce sCce d, a.text = .ok text ∧ a.signature key.publicKey = .ok (some sign) ∧
    SigmaSigner.sign P.hash ⟨some T, some key.getPublicKeys⟩ T (getBytes text) nonce sCce d
      = .ok sign

/-- The answer passes the check of the listener. -/
def Recognised (P : Platform) (p : Party) (a : TrentAnswer) : Prop :=
  ProtocolResolve.authentic P (p.setTrentK p.trentK) a = .ok true

/-- The signer of the resolving step knows no receiver, or one with the identity of `T`. -/
def Expects (T : ElGamalKey) (p : Party) : Prop :=
  ∀ r, p.signer.receiverK = some r → identityValue r = identityValue T

/-- **A genuine answer is recognised** exactly when the signer expects Trent's identity. -/
theorem recognised_iff {T : ElGamalKey} (hT : T.Valid) (ho : T.Owned) (hkey : p.key.Valid)
    (ht : p.trentK.publicKey = T.publicKey) {a : TrentAnswer} (ha : Genuine P T p.key a) :
    Recognised P p a ↔ p.Expects T := by
  obtain ⟨text, sign, nonce, sCce, d, htext, hsignature, hsign⟩ := ha
  have hauthentic : ProtocolResolve.authentic P (p.setTrentK p.trentK) a =
      SigmaSigner.verify P.hash ⟨some p.trentK, p.signer.receiverK⟩ (getBytes text) sign := by
    have hsignature' : a.signature (p.setTrentK p.trentK).key.publicKey = .ok (some sign) :=
      hsignature
    rw [ProtocolResolve.authentic, htext, ok_bind, hsignature', ok_bind, nonNull_some, ok_bind]
    rfl
  have htrent : ∀ r, some p.trentK = some r → r.publicKey = T.publicKey := by
    rintro r ⟨⟩
    exact ht
  rw [Recognised, hauthentic, Expects]
  cases hr : p.signer.receiverK with
  | none =>
    refine iff_of_true (verify_of_sign hT ho hT hkey.getPublicKeys hsign ⟨?_, htrent⟩) ?_
    · rintro r ⟨⟩
    · rintro r ⟨⟩
  | some r =>
    have hown : SigmaSigner.verify P.hash ⟨some p.trentK, some T⟩ (getBytes text) sign =
        .ok true := by
      refine verify_of_sign hT ho hT hkey.getPublicKeys hsign ⟨?_, htrent⟩
      rintro r ⟨⟩
      rfl
    rw [SigmaSigner.verify_receiver_iff hown]
    constructor
    · rintro h r' ⟨⟩
      exact h
    · exact fun h => h r rfl

/-! ### Who sets the key of the receiver -/

def Waits (p : Party) : Prop :=
  p.signer.receiverK = none ∨ p.signer.receiverK = some p.trentK

abbrev KeepsWaiting (p p' : Party) : Prop := p.Waits → p'.Waits

theorem Waits.expects {T : ElGamalKey} (h : p.Waits) (ht : p.trentK.publicKey = T.publicKey) :
    p.Expects T := by
  intro r hr
  rcases h with hnone | htrent
  · rw [hnone] at hr
    exact absurd hr (by simp)
  · rw [htrent, Option.some.injEq] at hr
    rw [← hr, identityValue, identityValue, getIdentificationData, getIdentificationData, ht]

/-- A request sets the key of Trent, also when it is not sent in the end. -/
theorem resolve_sendMessage_waits (d : SignDraws) (p : Party) :
    KeepsWaiting p ((ProtocolResolve.sendMessage P d).exec p).2 := by
  intro hp
  unfold ProtocolResolve.sendMessage
  simp only [Act.exec_modify_bind, Act.exec_get_bind]
  generalize (p.setStatus .resolving).stop = q
  have hq : (q.setReceiverK q.trentK).Waits := Or.inr rfl
  apply Act.after_lift hq
  intro claimK _
  apply Act.after_lift hq
  intro sigClaimK _
  rw [Act.exec_modify]
  exact Or.inr rfl

theorem passing_waits : Passing P KeepsWaiting where
  refl _ hp := hp
  trans _ _ _ h h' hp := h' (h hp)
  signature _ _ _ hp := hp
  finalized _ hp := hp
  deaf _ hp := hp
  promise _ _ _ _ hp := hp
  resolve := resolve_sendMessage_waits
  signing _ _ _ hp := hp
  next _ hp := hp

/-! ### Answers with signatures -/

def Turned (p : Party) : Prop := ∃ k ∈ p.contract.parties, p.signer.receiverK = some k

abbrev KeepsTurned (p p' : Party) : Prop := p.Turned → p'.Turned

theorem adding_turned : Adding P KeepsTurned where
  refl _ hp := hp
  trans _ _ _ h h' hp := h' (h hp)
  signature p k s := by
    rintro ⟨k', hk', hr⟩
    obtain ⟨signatures, status, heq, -⟩ := p.contract.addSignature_eq P.hash (some k) s
    rw [heq]
    exact ⟨k', hk', hr⟩
  finalized _ hp := hp
  deaf _ hp := hp

theorem addResolved_turned (round : ℤ) (si : Option SigmaSignature × ℕ) (p : Party)
    (h : p.Turned ∨ si.2 < p.contract.parties.length) :
    ((ProtocolResolve.addResolved P round si).exec p).2.Turned := by
  unfold ProtocolResolve.addResolved
  rw [Act.exec_get_bind]
  rcases hparty : p.party si.2 with e | k
  · rw [Act.exec_error_bind]
    refine h.resolve_right fun hlt => ?_
    rw [Party.party, List.getElem?_eq_getElem hlt] at hparty
    exact absurd hparty (by simp)
  · have hk : (p.setReceiverK k).Turned :=
      ⟨k, List.mem_of_getElem? (party_eq_ok.mp hparty), rfl⟩
    rw [Act.exec_ok_bind, Act.exec_modify_bind, Act.exec_get_bind]
    apply Act.after_lift hk
    intro s _
    apply Act.after_lift hk
    intro b _
    cases b with
    | false => exact hk
    | true => exact adding_turned.addSignature k s _ hk

theorem resolved_turned {s : Option SigmaSignature} {rest : List (Option SigmaSignature)}
    (hp : p.contract.parties ≠ []) :
    ((ProtocolResolve.resolved P (some (s :: rest))).exec p).2.Turned := by
  unfold ProtocolResolve.resolved
  rw [Act.exec_get_bind, nonNull_some, Act.exec_ok_bind]
  generalize p.getRound = round
  have hloop :
      (((s :: rest).zipIdx.forM (ProtocolResolve.addResolved P round)).exec p).2.Turned := by
    rw [List.zipIdx_cons, List.forM_eq_forM, List.forM_cons]
    have hfirst := addResolved_turned (P := P) round (s, 0) p
      (Or.inr (List.length_pos_iff.mpr hp))
    apply Act.after_bind (fun _ _ => hfirst)
    intro _ _
    exact Act.keeps_forM (R := KeepsTurned) (fun _ h => h) (fun _ _ _ h h' hq => h' (h hq))
      (fun si _ q hq => addResolved_turned round si q (Or.inl hq)) _ hfirst
  apply Act.after_bind (fun _ _ => hloop)
  intro _ _
  exact adding_turned.resolved_end _ hloop

theorem resolved_waits {sigSign : Option (List (Option SigmaSignature))}
    (h : p.contract.parties = [] ∨ ∀ s rest, sigSign ≠ some (s :: rest)) (hp : p.Waits) :
    ((ProtocolResolve.resolved P sigSign).exec p).2.Waits := by
  unfold ProtocolResolve.resolved
  rw [Act.exec_get_bind]
  generalize p.getRound = round
  rcases sigSign with _ | _ | ⟨s, rest⟩
  · rw [nonNull_none, Act.exec_error_bind]
    exact hp
  · rw [nonNull_some, Act.exec_ok_bind]
    exact passing_waits.resolved_end _ hp
  · have hnil : p.contract.parties = [] := h.resolve_right fun hne => hne s rest rfl
    have herror : p.party 0 = .error .indexOutOfBounds := by rw [Party.party, hnil]; rfl
    rw [nonNull_some, Act.exec_ok_bind, List.zipIdx_cons, List.forM_eq_forM, List.forM_cons]
    unfold ProtocolResolve.addResolved
    rw [Act.exec_bind, Act.exec_bind, Act.exec_get_bind, herror, Act.exec_error_bind]
    exact hp

/-- An answer that is worked through as far as its first signature. -/
def Opens (P : Platform) (p : Party) (e : Event) : Prop :=
  ∃ a, e = .answer a p.trentK.publicKey ∧ p.phase ≠ .choosing ∧ a.dishonest = .ok false ∧
    Recognised P p a ∧ a.kind = .ok "resolved" ∧ p.contract.parties ≠ [] ∧
    ∃ s rest, a.sigSign = some (s :: rest)

theorem answered_waits {a : TrentAnswer} {senderId : ℤ} (hphase : p.phase ≠ .choosing)
    (h : ¬ Opens P p (.answer a senderId)) (hp : p.Waits) :
    ((ProtocolResolve.answered P a senderId).exec p).2.Waits := by
  unfold ProtocolResolve.answered
  rw [Act.exec_get_bind]
  split
  · rename_i hs
    subst hs
    apply Act.after_lift hp
    intro dishonest hdishonest
    cases dishonest with
    | true => exact hp
    | false =>
      simp only [Bool.false_eq_true, if_false, Act.exec_modify_bind, Act.exec_get_bind]
      have hset : (p.setTrentK p.trentK).Waits := hp
      apply Act.after_lift hset
      intro b hb
      cases b with
      | false => exact hset
      | true =>
        simp only [if_true]
        unfold ProtocolResolve.verdict
        apply Act.after_lift hset
        intro kind hkind
        split
        · have hstatus : ((p.setTrentK p.trentK).setStatus .cancelled).Waits := hset
          exact (passing_waits (P := P)).stop _ hstatus
        · split
          · rename_i hresolved
            refine resolved_waits ?_ hset
            by_contra hno
            push Not at hno
            obtain ⟨hnil, s, rest, hsigSign⟩ := hno
            exact h ⟨a, rfl, hphase, hdishonest, hb, hresolved ▸ hkind, hnil, s, rest, hsigSign⟩
          · exact hset
  · exact hp

theorem answered_turned {e : Event} (h : Opens P p e) : ((machine P).next p e).Turned := by
  obtain ⟨a, rfl, hphase, hdishonest, hrecognised, hkind, hnil, s, rest, hsigSign⟩ := h
  change ((handle P (.answer a p.trentK.publicKey)).exec p).2.Turned
  rw [handle, Act.exec_get_bind, if_pos hphase, ProtocolResolve.answered, Act.exec_get_bind,
    if_pos rfl, hdishonest, Act.exec_ok_bind]
  simp only [Bool.false_eq_true, if_false, Act.exec_modify_bind, Act.exec_get_bind]
  rw [show ProtocolResolve.authentic P (p.setTrentK p.trentK) a = .ok true from hrecognised,
    Act.exec_ok_bind]
  simp only [if_true]
  rw [ProtocolResolve.verdict, hkind, Act.exec_ok_bind, if_neg (by decide), if_pos rfl, hsigSign]
  exact resolved_turned hnil

/-- **Only such an answer turns the signer away from Trent.** -/
theorem next_waits {e : Event} (h : ¬ Opens P p e) (hp : p.Waits) :
    ((machine P).next p e).Waits := by
  have htakes := takes_next (P := P) p e
  generalize (machine P).next p e = p' at htakes ⊢
  cases htakes with
  | ignored => exact hp
  | listen => exact Or.inl rfl
  | create => exact hp
  | start d => exact passing_waits.sendMessage d _ hp
  | receive message senderId d => exact passing_waits.received message senderId d p hp
  | answer a senderId hphase => exact answered_waits hphase h hp
  | resolve d => exact resolve_sendMessage_waits d p hp
  | setWish w => exact hp

theorem run_waits {es : List Event} (hp : p.Waits)
    (h : (machine P).Along (fun _ q e => ¬ Opens P q e) p es) : ((machine P).run p es).Waits :=
  (machine P).invariant_along (I := Waits) hp (fun _ _ _ hq he => next_waits he hq) es h

/-! ### All runs -/

theorem run_ready_same (hp : p.Ready) (es : List Event) :
    ((machine P).run p es).Ready ∧ Same p ((machine P).run p es) := by
  refine (machine P).invariant (I := fun q => q.Ready ∧ Same p q)
    ⟨hp, rfl, rfl, rfl, rfl, rfl⟩ ?_ es
  rintro q e ⟨hready, hsame⟩
  have hevolves : Evolves P (fun _ _ => True) q ((machine P).next q e) :=
    handle_writes hready e fun _ _ _ _ _ _ _ _ _ => trivial
  exact ⟨hevolves.ready hready, hsame.trans hevolves.same⟩

def Recognises (P : Platform) (T : ElGamalKey) (p : Party) (e : Event) : Prop :=
  ∀ a senderId, e = .answer a senderId → Genuine P T p.key a → Recognised P p a

/-- After an answer with signatures the next genuine one is not recognised. -/
theorem not_recognised {T : ElGamalKey} (hT : T.Valid) (ho : T.Owned) (hready : p.Ready)
    (hkey : p.key.Valid) (ht : p.trentK.publicKey = T.publicKey) {e : Event} (h : Opens P p e)
    (hidentity : ∀ k ∈ p.contract.parties, identityValue k ≠ identityValue T) {a : TrentAnswer}
    (ha : Genuine P T p.key a) : ¬ Recognised P ((machine P).next p e) a := by
  have hsame : Same p ((machine P).next p e) := (run_ready_same hready [e]).2
  obtain ⟨k, hk, hr⟩ := answered_turned h
  rw [hsame.parties] at hk
  rw [← hsame.key] at hkey ha
  rw [← hsame.trentK] at ht
  rw [recognised_iff hT ho hkey ht ha]
  exact fun hexpects => hidentity k hk (hexpects k hr)

/-- **Genuine answers are recognised in exactly the runs** in which each one finds the signer
expecting Trent's identity.  That is so as long as no answer has been worked through as
far as a signature; once one has been, the next is not recognised. -/
theorem genuine_recognised_iff (P : Platform) {T key trentK : ElGamalKey} (hT : T.Valid)
    (ho : T.Owned) (hkey : key.Valid) (ht : trentK.publicKey = T.publicKey)
    (contract : SigmaContract) (chooseRound : ℤ) (es : List Event) :
    ((machine P).Along (fun _ p e => Recognises P T p e)
        (initial key trentK contract chooseRound) es ↔
      (machine P).Along (fun _ p e => ∀ a senderId, e = .answer a senderId →
        Genuine P T p.key a → p.Expects T) (initial key trentK contract chooseRound) es) ∧
    ((machine P).Along (fun _ p e => ¬ Opens P p e)
        (initial key trentK contract chooseRound) es →
      ∀ e, Recognises P T ((machine P).run (initial key trentK contract chooseRound) es) e) ∧
    ∀ e, Opens P ((machine P).run (initial key trentK contract chooseRound) es) e →
      (∀ k ∈ contract.parties, identityValue k ≠ identityValue T) →
      ∀ a, Genuine P T key a →
        ¬ Recognised P
          ((machine P).run (initial key trentK contract chooseRound) (es ++ [e])) a := by
  have hready : (initial key trentK contract chooseRound).Ready := fun hl =>
    absurd hl (by simp [initial])
  have hsame := fun is => (run_ready_same (P := P) hready is).2
  have hkey' : ∀ is, ((machine P).run (initial key trentK contract chooseRound) is).key.Valid := by
    intro is
    rw [(hsame is).key]
    exact hkey
  have ht' : ∀ is, ((machine P).run (initial key trentK contract chooseRound) is).trentK.publicKey
      = T.publicKey := by
    intro is
    rw [(hsame is).trentK]
    exact ht
  refine ⟨?_, ?_, ?_⟩
  · refine forall₄_congr fun pre e post heq => forall₄_congr fun a senderId ha hgenuine => ?_
    exact recognised_iff hT ho (hkey' pre) (ht' pre) hgenuine
  · intro hes e a senderId _ hgenuine
    have hwaits := run_waits (Or.inl rfl) hes
    exact (recognised_iff hT ho (hkey' es) (ht' es) hgenuine).mpr (hwaits.expects (ht' es))
  · intro e hopens hidentity a hgenuine
    rw [Machine.run_concat]
    refine not_recognised hT ho (run_ready_same hready es).1 (hkey' es) (ht' es) hopens ?_ ?_
    · rw [(hsame es).parties]
      exact hidentity
    · rw [(hsame es).key]
      exact hgenuine

/-! ### An answer that comes twice -/

def sampleListener : Party :=
  (machine samplePlatform).run
    (initial (sampleKey 1000) (sampleKey 1002).getPublicKeys SigmaContract.sampleContract 0)
    [.listen]

def sampleResolved (s s' : SigmaSignature) : TrentAnswer :=
  ⟨.ok false, .ok "resolved", .ok "answer", fun _ => .ok (some s), some [some s']⟩

theorem sampleKey_identityValue_ne :
    ∀ k ∈ SigmaContract.sampleContract.parties,
      identityValue k ≠ identityValue (sampleKey 1002) := by
  have hne : ∀ x : ℕ, 10 ^ 124 ≤ (sampleKey x).publicKey →
      (Nat.toDigits 10 (sampleKey x).publicKey.toNat).take 125 ≠
        (Nat.toDigits 10 (sampleKey 1002).publicKey.toNat).take 125 →
      identityValue (sampleKey x).getPublicKeys ≠ identityValue (sampleKey 1002) := by
    intro x hx htake heq
    exact identity_ne (sampleKey_valid x).publicKey_nonneg (sampleKey_valid 1002).publicKey_nonneg
      hx htake ((identityValue_inj hx (by decide +kernel)).mp heq)
  intro k hk
  rcases List.mem_pair.mp hk with rfl | rfl
  · exact hne 1000 (by decide +kernel) (by decide +kernel)
  · exact hne 1001 (by decide +kernel) (by decide +kernel)

theorem sampleResolved_genuine : ∃ s,
    SigmaSigner.sign sha256 ⟨some (sampleKey 1002), some (sampleKey 1000).getPublicKeys⟩
      (sampleKey 1002) (getBytes "answer") 7 8 ⟨1, 2, 3, 4, 5, 6⟩ = .ok s ∧
    ∀ s', Genuine samplePlatform (sampleKey 1002) (sampleKey 1000) (sampleResolved s s') := by
  have hreg := sampleKey_registered (x := 1002) 1002 (by decide +kernel)
  have htrent : Registered (sampleKey 1002) (sampleKey 1002) :=
    ⟨hreg.party, hreg.digits, hreg.trent.of_getPublicKeys, hreg.fits⟩
  obtain ⟨s, hs, -⟩ := sign_accepted sha256 htrent (sampleKey_owned 1002) (sampleKey_valid 1000)
    (getBytes "answer") 7 8 ⟨1, 2, 3, 4, 5, 6⟩
  exact ⟨s, hs, fun s' => ⟨"answer", s, 7, 8, _, rfl, rfl, hs⟩⟩

theorem sampleListener_key : sampleListener.key = sampleKey 1000 := rfl

theorem sampleListener_trentK :
    sampleListener.trentK.publicKey = (sampleKey 1002).publicKey := by
  rw [show sampleListener.trentK = (sampleKey 1002).getPublicKeys from rfl,
    ElGamalKey.getPublicKeys]

theorem sampleListener_valid : sampleListener.key.Valid := by
  rw [sampleListener_key]
  exact (sampleKey_valid 1000).of_getPublicKeys

theorem sampleResolved_opens {s s' : SigmaSignature}
    (hs : Genuine samplePlatform (sampleKey 1002) sampleListener.key (sampleResolved s s')) :
    Recognised samplePlatform sampleListener (sampleResolved s s') ∧
    Opens samplePlatform sampleListener
      (.answer (sampleResolved s s') (sampleKey 1002).publicKey) := by
  have hwaits : sampleListener.Waits := Or.inl rfl
  have hrecognised : Recognised samplePlatform sampleListener (sampleResolved s s') :=
    (recognised_iff (sampleKey_valid 1002).of_getPublicKeys (sampleKey_owned 1002)
      sampleListener_valid sampleListener_trentK hs).mpr (hwaits.expects sampleListener_trentK)
  exact ⟨hrecognised, _, by rw [sampleListener_trentK], by decide, rfl, hrecognised, rfl,
    List.cons_ne_nil _ _, _, _, rfl⟩

/-- The same answer is recognised and then not, whatever signature it hands out. -/
theorem second_answer_rejected : ∃ s,
    SigmaSigner.sign sha256 ⟨some (sampleKey 1002), some (sampleKey 1000).getPublicKeys⟩
      (sampleKey 1002) (getBytes "answer") 7 8 ⟨1, 2, 3, 4, 5, 6⟩ = .ok s ∧
    ∀ s', Recognised samplePlatform sampleListener (sampleResolved s s') ∧
      ¬ Recognised samplePlatform ((machine samplePlatform).next sampleListener
        (.answer (sampleResolved s s') (sampleKey 1002).publicKey)) (sampleResolved s s') := by
  obtain ⟨s, hsign, hs⟩ := sampleResolved_genuine
  refine ⟨s, hsign, fun s' => ?_⟩
  have hgenuine : Genuine samplePlatform (sampleKey 1002) sampleListener.key
      (sampleResolved s s') := by
    rw [sampleListener_key]
    exact hs s'
  obtain ⟨hrecognised, hopens⟩ := sampleResolved_opens hgenuine
  exact ⟨hrecognised, not_recognised (sampleKey_valid 1002).of_getPublicKeys (sampleKey_owned 1002)
    (fun hl => absurd hl (by decide)) sampleListener_valid sampleListener_trentK hopens
    sampleKey_identityValue_ne hgenuine⟩

theorem genuine_recognised_sample : ∃ s,
    Genuine samplePlatform (sampleKey 1002) (sampleKey 1000) (sampleResolved s s) ∧
    ¬ Recognised samplePlatform ((machine samplePlatform).run (initial (sampleKey 1000)
        (sampleKey 1002).getPublicKeys SigmaContract.sampleContract 0)
      ([.listen] ++ [.answer (sampleResolved s s) (sampleKey 1002).publicKey]))
      (sampleResolved s s) := by
  obtain ⟨s, -, hs⟩ := sampleResolved_genuine
  have hgenuine : Genuine samplePlatform (sampleKey 1002) sampleListener.key
      (sampleResolved s s) := by
    rw [sampleListener_key]
    exact hs s
  have hopens := (sampleResolved_opens hgenuine).2
  rw [sampleListener] at hopens
  have ht : (sampleKey 1002).getPublicKeys.publicKey = (sampleKey 1002).publicKey := by
    rw [ElGamalKey.getPublicKeys]
  exact ⟨s, hs s, (genuine_recognised_iff samplePlatform (sampleKey_valid 1002).of_getPublicKeys
    (sampleKey_owned 1002) (sampleKey_valid 1000).of_getPublicKeys ht
    SigmaContract.sampleContract 0 [.listen]).2.2 _ hopens sampleKey_identityValue_ne _ (hs s)⟩

end Party

end SXP.Sigma
