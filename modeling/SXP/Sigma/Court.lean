import SXP.Sigma.Office
import SXP.Sigma.Statuses
import SXP.Sigma.Continuing
import SXP.Sigma.Rounds

/-!
# The parties before Trent

The parties of one contract and Trent, whose listener is asked about this contract and
about others, by anybody.  What Trent sends is told to the parties in any order and any
number of times, and nobody else speaks under his id.

Trent's verdicts on one contract are one, so he divides no parties: when the contract of
one of them was cancelled, nobody gets a signature from Trent, before or after
(`nobody_both`).
-/

namespace SXP.Sigma

open SXP.Lib SXP.Lib.Java SXP.Lib.Text

/-! ### What a party reads -/

def Answer.name : Answer → String
  | .resolved _ => "resolved"
  | .aborted _ _ => "aborted"
  | .honestyToken _ _ => "honestyToken"

def Answer.sigSign : Answer → Option (List (Option SigmaSignature))
  | .resolved sigs => some (sigs.map some)
  | _ => none

/-- A message of Trent is read as it was written; that somebody is dishonest is no JSON. -/
def TrentMessage.read : TrentMessage → TrentAnswer
  | .dishonest _ => ⟨.ok true, .error .nullPointer, .error .nullPointer,
      fun _ => .error .nullPointer, none⟩
  | .answer a text signatures => ⟨.ok false, .ok a.name, .ok text, fun publicKey =>
      match signatures.reverse.find? fun e => e.1 == publicKey with
      | some e => .ok (some e.2)
      | none => .error .nullPointer, a.sigSign⟩

theorem Answer.verdict_iff (a : Answer) :
    a.verdict = .cancelled ↔ a.name = "aborted" ∨ a.name = "honestyToken" := by
  cases a <;> simp [Answer.verdict, Answer.name]

/-! ### What cancels and what signs -/

namespace Party

variable {P : Platform} {p : Party}

abbrev KeepsUncancelled (p p' : Party) : Prop :=
  p.contract.status ≠ .cancelled → p'.contract.status ≠ .cancelled

theorem passing_uncancelled : Passing P KeepsUncancelled where
  refl _ hp := hp
  trans _ _ _ h h' hp := h' (h hp)
  signature p k s := by
    intro hp
    obtain ⟨signatures, status, heq, hst⟩ := p.contract.addSignature_eq P.hash (some k) s
    show (p.contract.addSignature P.hash (some k) s).2.status ≠ .cancelled
    rw [heq]
    rcases hst with rfl | rfl
    · exact hp
    · simp
  finalized _ _ := by
    rw [setStatus_status]
    decide
  deaf _ hp := hp
  promise _ _ _ _ hp := hp
  resolve d p _ := by
    rw [resolve_status]
    decide
  signing _ _ _ hp := hp
  next _ hp := hp

theorem addResolved_uncancelled (round : ℤ) (si : Option SigmaSignature × ℕ) (p : Party) :
    KeepsUncancelled p ((ProtocolResolve.addResolved P round si).exec p).2 := by
  intro hp
  obtain ⟨s, i⟩ := si
  rw [exec_addResolved]
  rcases p.party i with e | k
  · exact hp
  cases s with
  | none => exact hp
  | some s =>
    dsimp only
    rcases ProtocolResolve.accepts P ⟨p.signer.trentK, some k⟩ p.contract round s with e | _ | _
    · exact hp
    · exact hp
    · exact passing_uncancelled.addSignature k s (p.setReceiverK k) hp

theorem resolved_uncancelled (sigSign : Option (List (Option SigmaSignature))) (p : Party) :
    KeepsUncancelled p ((ProtocolResolve.resolved P sigSign).exec p).2 := by
  unfold ProtocolResolve.resolved
  rw [Act.exec_get_bind]
  apply Act.after_lift (Q := KeepsUncancelled p) (fun hp => hp)
  intro l _
  refine Act.keeps_bind (R := KeepsUncancelled) (fun _ _ _ h h' hp => h' (h hp))
    (Act.keeps_forM (R := KeepsUncancelled) (fun _ hp => hp) (fun _ _ _ h h' hp => h' (h hp))
      (fun si _ q => addResolved_uncancelled _ si q) p) ?_
  intro _ _
  exact passing_uncancelled.resolved_end _

/-- **Only Trent's word cancels a contract.** -/
theorem next_cancelled {e : Event} (hp : p.contract.status ≠ .cancelled)
    (h : ((machine P).next p e).contract.status = .cancelled) :
    ∃ a, e = .answer a p.trentK.publicKey ∧ a.dishonest = .ok false ∧
      (a.kind = .ok "aborted" ∨ a.kind = .ok "honestyToken") := by
  have htakes := takes_next (P := P) p e
  generalize (machine P).next p e = p' at h htakes
  cases htakes with
  | ignored => exact absurd h hp
  | listen => exact absurd h (by simp)
  | create => exact absurd h hp
  | start d => exact absurd h (passing_uncancelled.sendMessage d { p with phase := .running } hp)
  | receive message senderId d =>
    exact absurd h (passing_uncancelled.received message senderId d p hp)
  | resolve d => exact absurd h (passing_uncancelled.resolve d p hp)
  | setWish w => exact absurd h hp
  | answer a senderId hphase =>
    by_cases hears : p.Hears P a senderId
    · rw [answered_heard hears] at h
      obtain ⟨-, rfl, hdishonest, -⟩ := hears
      refine ⟨a, rfl, hdishonest, ?_⟩
      unfold ProtocolResolve.verdict at h
      rcases hkind : a.kind with e | kind
      · rw [hkind] at h
        exact absurd h hp
      rw [hkind, Act.exec_ok_bind] at h
      by_cases hk : kind = "aborted" ∨ kind = "honestyToken"
      · rcases hk with rfl | rfl
        · exact Or.inl rfl
        · exact Or.inr rfl
      · rw [if_neg hk] at h
        split at h
        · exact absurd h (resolved_uncancelled a.sigSign (p.setTrentK p.trentK) hp)
        · exact absurd h hp
    · rw [answered_unheard hphase hears] at h
      exact absurd h hp

theorem next_signatures {message : TrentMessage} (h : message.verdict ≠ some .opened)
    (senderId : ℤ) :
    ((machine P).next p (.answer message.read senderId)).contract.signatures
      = p.contract.signatures := by
  have htakes := takes_next (P := P) p (.answer message.read senderId)
  generalize (machine P).next p (.answer message.read senderId) = p' at htakes
  cases htakes with
  | ignored => rfl
  | answer _ _ hphase =>
    by_cases hears : p.Hears P message.read senderId
    · rw [answered_heard hears]
      obtain ⟨-, -, hdishonest, -⟩ := hears
      cases message with
      | dishonest sender => exact absurd hdishonest (by simp [TrentMessage.read])
      | answer a text signatures =>
        have hcancelled : a.verdict = .cancelled := by
          cases hv : a.verdict with
          | opened => exact absurd (congrArg some hv) h
          | cancelled => rfl
        have hkind : (TrentMessage.answer a text signatures).read.kind = .ok a.name := rfl
        rw [ProtocolResolve.verdict, hkind, Act.exec_ok_bind, if_pos (a.verdict_iff.mp hcancelled),
          exec_aborted, stop_contract]
        rfl
    · rw [answered_unheard hphase hears]

end Party

/-! ### The system -/

structure Court (n : ℕ) where
  parties : Fin n → Party
  office : TrentService.Office

/-- Something happens among the parties, Trent is asked, or a message of Trent reaches a
party. -/
inductive CourtEvent (n : ℕ) where
  | party (e : NetEvent n)
  | mail (mail : TrentService.Mail)
  | tell (j : Fin n) (m : ℕ)

def CourtEvent.mail? {n : ℕ} : CourtEvent n → Option TrentService.Mail
  | .mail m => some m
  | _ => none

namespace Setting

variable {n : ℕ} (S : Setting n) (T : TrentService)

/-- Nobody else speaks under the id of Trent. -/
def partyEvent : NetEvent n → Option (NetEvent n)
  | .act j (.answer a senderId) =>
      if senderId = S.trentK.publicKey then none else some (.act j (.answer a senderId))
  | e => some e

/-- What an event is among the parties.  The title that a listener waits for was made from the
data of the contract when it was set. -/
def told (s : Court n) : CourtEvent n → Option (NetEvent n)
  | .party e => S.partyEvent e
  | .mail _ => none
  | .tell j m =>
      match s.office.sent[m]? with
      | some post =>
          if post.contractId = (S.contract j).contractId then
            some (.act j (.answer post.message.read T.keys.publicKey))
          else none
      | none => none

def court : Machine (Court n) (CourtEvent n) (Java Unit) where
  step s e :=
    match e with
    | .mail mail =>
        let (result, office) := T.notify s.office mail
        (result, { s with office := office })
    | e =>
        match S.told T s e with
        | none => (.ok (), s)
        | some e =>
            let (result, parties) := S.machine.step s.parties e
            (result, { s with parties := parties })

def opening : Court n := ⟨S.initial, .initial⟩

variable {S T}

theorem next_parties (s : Court n) (e : CourtEvent n) : ((S.court T).next s e).parties =
    (S.told T s e).elim s.parties (S.machine.next s.parties) := by
  show ((S.court T).step s e).2.parties = _
  cases e with
  | mail mail => rfl
  | party e =>
    unfold court
    dsimp only
    cases S.told T s (.party e) <;> rfl
  | tell j m =>
    unfold court
    dsimp only
    cases S.told T s (.tell j m) <;> rfl

theorem next_office (s : Court n) (e : CourtEvent n) : ((S.court T).next s e).office =
    e.mail?.elim s.office (T.office.next s.office) := by
  show ((S.court T).step s e).2.office = _
  cases e with
  | mail mail => rfl
  | party e =>
    unfold court
    dsimp only
    cases S.told T s (.party e) <;> rfl
  | tell j m =>
    unfold court
    dsimp only
    cases S.told T s (.tell j m) <;> rfl

/-- **The parties before Trent are parties on a network**, with what Trent tells them. -/
theorem run_parties (s : Court n) (es : List (CourtEvent n)) : ((S.court T).run s es).parties =
    S.machine.run s.parties ((S.court T).image (S.told T) s es) := by
  refine (S.court T).run_image (R := fun s t => s.parties = t) S.machine (fun e _ s t h => ?_) rfl
  subst h
  exact next_parties s e

/-- **Trent is the one that listens to everybody.** -/
theorem run_office (s : Court n) (es : List (CourtEvent n)) : ((S.court T).run s es).office =
    T.office.run s.office (es.filterMap CourtEvent.mail?) :=
  (S.court T).run_part T.office (π := Court.office) next_office s es

theorem sent_mono {s : Court n} {post : TrentService.Post} (h : post ∈ s.office.sent)
    (es : List (CourtEvent n)) : post ∈ ((S.court T).run s es).office.sent := by
  refine (S.court T).invariant (I := fun s => post ∈ s.office.sent) h (fun s e h => ?_) es
  rw [next_office]
  cases e with
  | party e => exact h
  | tell j m => exact h
  | mail mail =>
    have hhandles := TrentService.notify_handles T s.office mail
    show post ∈ (T.office.next s.office mail).sent
    generalize T.office.next s.office mail = o at hhandles ⊢
    cases hhandles with
    | ignored => exact h
    | solved request hcontent hchecks posts hwritten => exact List.mem_append_left _ h

theorem run_office_inv (es : List (CourtEvent n)) :
    ((S.court T).run S.opening es).office.Inv := by
  rw [run_office]
  exact TrentService.run_inv T _

theorem contractId_eq (i j : Fin n) : (S.contract i).contractId = (S.contract j).contractId := by
  unfold SigmaContract.contractId
  rw [SigmaContract.getHashableData_congr ((S.parties i).trans (S.parties j).symm) (S.clauses i j)]

/-! ### Who is told what -/

theorem told_cases {s : Court n} {e : CourtEvent n} {e' : NetEvent n} {j : Fin n} {e'' : Event}
    (h : S.told T s e = some e') (hlocal : S.localEvent s.parties e' = some (j, e'')) :
    (∃ m post, e = .tell j m ∧ s.office.sent[m]? = some post ∧
        post.contractId = (S.contract j).contractId ∧
        e'' = .answer post.message.read T.keys.publicKey) ∨
      (∃ e₀, e = .party e₀) ∧ ∀ a, e'' ≠ .answer a S.trentK.publicKey := by
  cases e with
  | mail mail => exact absurd h (by simp [told])
  | tell k m =>
    refine Or.inl ?_
    unfold told at h
    dsimp only at h
    cases hpost : s.office.sent[m]? with
    | none =>
      rw [hpost] at h
      exact absurd h (by simp)
    | some post =>
      rw [hpost] at h
      dsimp only at h
      split at h
      · rename_i htitle
        obtain rfl := Option.some.inj h
        obtain ⟨rfl, rfl⟩ := Prod.mk.inj (Option.some.inj hlocal)
        exact ⟨m, post, rfl, hpost, htitle, rfl⟩
      · exact absurd h (by simp)
  | party e =>
    refine Or.inr ⟨⟨e, rfl⟩, fun a heq => ?_⟩
    subst heq
    cases e with
    | deliver i k m d =>
      obtain rfl := Option.some.inj h
      unfold localEvent at hlocal
      dsimp only at hlocal
      split at hlocal
      · exact absurd (congrArg Prod.snd (Option.some.inj hlocal)) (by simp)
      · exact absurd hlocal (by simp)
    | act k e =>
      cases e with
      | answer a' senderId =>
        unfold told partyEvent at h
        dsimp only at h
        split at h
        · exact absurd h (by simp)
        · rename_i hne
          obtain rfl := Option.some.inj h
          obtain ⟨-, heq⟩ := Prod.mk.inj (Option.some.inj hlocal)
          exact hne (Event.answer.inj heq).2
      | receive message senderId d =>
        obtain rfl := Option.some.inj h
        unfold localEvent at hlocal
        dsimp only at hlocal
        split at hlocal
        · exact absurd (congrArg Prod.snd (Option.some.inj hlocal)) (by simp)
        · exact absurd hlocal (by simp)
      | _ =>
        obtain rfl := Option.some.inj h
        exact absurd (congrArg Prod.snd (Option.some.inj hlocal)) (by simp)

/-- A party stays as it is, or takes the step of the event that is told to it. -/
theorem next_party (s : Court n) (e : CourtEvent n) (j : Fin n) :
    ((S.court T).next s e).parties j = s.parties j ∨
      ∃ e' e'', S.told T s e = some e' ∧ S.localEvent s.parties e' = some (j, e'') ∧
        ((S.court T).next s e).parties j = (Party.machine S.platform).next (s.parties j) e'' := by
  rw [next_parties]
  cases htold : S.told T s e with
  | none => exact Or.inl rfl
  | some e' =>
    show S.machine.next s.parties e' j = _ ∨ _
    cases hlocal : S.localEvent s.parties e' with
    | none =>
      rw [next_of_none S hlocal]
      exact Or.inl rfl
    | some je =>
      obtain ⟨j', e''⟩ := je
      by_cases hj : j = j'
      · subst hj
        refine Or.inr ⟨e', e'', rfl, hlocal, ?_⟩
        show S.machine.next s.parties e' j = _
        rw [next_of_some S hlocal, Function.update_self]
      · rw [next_of_some S hlocal, Function.update_of_ne hj]
        exact Or.inl rfl

theorem run_same (es : List (CourtEvent n)) (j : Fin n) :
    Party.Same (S.initial j) (((S.court T).run S.opening es).parties j) := by
  rw [run_parties]
  exact (run_netInv _).same j

def Given (S : Setting n) (s : Court n) (j : Fin n) (v : Verdict) : Prop :=
  ∃ m, ⟨(S.contract j).contractId, m⟩ ∈ s.office.sent ∧ TrentMessage.verdict m = some v

theorem Given.run {s : Court n} {j : Fin n} {v : Verdict} (h : S.Given s j v)
    (es : List (CourtEvent n)) : S.Given ((S.court T).run s es) j v := by
  obtain ⟨m, hmem, hv⟩ := h
  exact ⟨m, sent_mono hmem es, hv⟩

/-- **All verdicts that are given are one**, for whichever parties. -/
theorem given_unique {es : List (CourtEvent n)} {j k : Fin n} {v v' : Verdict}
    (h : S.Given ((S.court T).run S.opening es) j v)
    (h' : S.Given ((S.court T).run S.opening es) k v') : v = v' := by
  obtain ⟨m, hm, hv⟩ := h
  obtain ⟨m', hm', hv'⟩ := h'
  rw [contractId_eq k j] at hm'
  exact (run_office_inv es).unique (TrentService.Office.mem_about.mpr hm)
    (TrentService.Office.mem_about.mpr hm') hv hv'

theorem given_of_told {s : Court n} {m : ℕ} {post : TrentService.Post} {j : Fin n}
    (h : s.office.sent[m]? = some post) (hid : post.contractId = (S.contract j).contractId)
    {v : Verdict} (hv : post.message.verdict = some v) : S.Given s j v := by
  obtain ⟨id, message⟩ := post
  dsimp only at hid
  subst hid
  exact ⟨message, List.mem_of_getElem? h, hv⟩

theorem given_of_cancelled (hnew : ∀ j, (S.contract j).status ≠ .cancelled)
    (es : List (CourtEvent n)) :
    ∀ j, (((S.court T).run S.opening es).parties j).contract.status = .cancelled →
      S.Given ((S.court T).run S.opening es) j .cancelled := by
  refine (S.court T).invariant_inputs (I := fun _ s => ∀ j,
    (s.parties j).contract.status = .cancelled → S.Given s j .cancelled) ?_ ?_ es
  · intro j h
    exact absurd h (hnew j)
  · intro pre e ih j h
    have hmono : S.Given ((S.court T).run S.opening pre) j .cancelled →
        S.Given ((S.court T).next ((S.court T).run S.opening pre) e) j .cancelled :=
      fun hgiven => hgiven.run [e]
    have hsame : Party.Same (S.initial j) _ := run_same (T := T) pre j
    have htrent : (((S.court T).run S.opening pre).parties j).trentK = S.trentK := hsame.trentK
    generalize (S.court T).run S.opening pre = s at ih h hmono htrent
    rcases next_party (T := T) s e j with hsame | ⟨e', e'', htold, hlocal, hnext⟩
    · rw [hsame] at h
      exact hmono (ih j h)
    · rw [hnext] at h
      by_cases hbefore : (s.parties j).contract.status = .cancelled
      · exact hmono (ih j hbefore)
      · obtain ⟨a, rfl, hdishonest, hkind⟩ := Party.next_cancelled hbefore h
        rw [htrent] at hlocal
        rcases told_cases htold hlocal with ⟨m, post, -, hpost, hid, hread⟩ | ⟨-, hother⟩
        · obtain ⟨rfl, -⟩ := Event.answer.inj hread
          refine hmono (given_of_told hpost hid ?_)
          generalize post.message = message at hdishonest hkind ⊢
          cases message with
          | dishonest sender => exact absurd hdishonest (by simp [TrentMessage.read])
          | answer a text signatures =>
            refine congrArg some (a.verdict_iff.mpr ?_)
            exact hkind.imp Except.ok.inj Except.ok.inj
        · exact absurd rfl (hother a)

def HandsOver (S : Setting n) (T : TrentService) (k : Fin n) (s : Court n)
    (e : CourtEvent n) : Prop :=
  (∃ m, e = .tell k m) ∧ (((S.court T).next s e).parties k).contract.signatures ≠
    (s.parties k).contract.signatures

/-- Who gets a signature from Trent was told that promises are opened. -/
theorem given_of_handsOver {k : Fin n} {s : Court n} {e : CourtEvent n} (h : S.HandsOver T k s e) :
    S.Given s k .opened := by
  obtain ⟨⟨m, rfl⟩, hne⟩ := h
  rcases next_party (T := T) s (.tell k m) k with hsame | ⟨e', e'', htold, hlocal, hnext⟩
  · rw [hsame] at hne
    exact absurd rfl hne
  · rcases told_cases htold hlocal with ⟨m', post, -, hpost, hid, rfl⟩ | ⟨⟨e₀, heq⟩, -⟩
    · refine given_of_told hpost hid ?_
      by_contra hv
      rw [hnext] at hne
      exact hne (Party.next_signatures hv _)
    · exact absurd heq (by simp)

/-- **Trent divides no parties.**  Whoever asks him, and in whatever order he is heard: when the
contract of one party is cancelled at some point of a run, no party gets a signature from him,
before or after. -/
theorem nobody_both (S : Setting n) (T : TrentService)
    (hnew : ∀ j, (S.contract j).status ≠ .cancelled) (es : List (CourtEvent n)) (j k : Fin n) :
    ¬ ((∃ pre, pre <+: es ∧
        (((S.court T).run S.opening pre).parties j).contract.status = .cancelled) ∧
      (S.court T).Happens (S.HandsOver T k) S.opening es) := by
  rintro ⟨⟨pre, ⟨rest, rfl⟩, hcancelled⟩, pre', e, post, heq, hbrings⟩
  have h := (given_of_cancelled hnew pre j hcancelled).run (T := T) rest
  have h' := (given_of_handsOver hbrings).run (T := T) (e :: post)
  rw [← Machine.run_append] at h h'
  rw [← heq] at h'
  exact absurd (given_unique h h') (by decide)

end Setting

end SXP.Sigma
