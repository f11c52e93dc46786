import SXP.Sigma.Court
import SXP.Sigma.Resolution

/-!
# The judgement

Where all parties are honest, and Trent is asked about their contract by nobody else, what he
says is the end of it: whoever is in the signing step when he is told a verdict has a
finalized contract with a signature of everybody, or a cancelled one, and it is the same for
all (`judgement_agrees`).
-/

namespace SXP.Sigma

open SXP.Lib SXP.Lib.Java SXP.Lib.Text Relation

/-! ### What was sent stays -/

namespace Party

variable {P : Platform} {origin : ℤ → ℕ → Prop} {p p' : Party}

theorem Writes.mem_sent (h : Writes P origin p p') {m : Outgoing} (hm : m ∈ p.sent) :
    m ∈ p'.sent := by
  cases h with
  | signing content hsigns => exact List.mem_append_left _ hm
  | request text s hsigns hst => exact List.mem_append_left _ hm
  | _ => exact hm

theorem mem_sent_next {m : Outgoing} (hp : p.Ready) (hm : m ∈ p.sent) (e : Event) :
    m ∈ ((machine P).next p e).sent :=
  (next_evolves hp e).keeps (I := fun p => m ∈ p.sent) (fun hw hmem => hw.mem_sent hmem) hm

end Party

namespace Setting

variable {n : ℕ} {S : Setting n} {T : TrentService}

open Party

/-! ### Answers of Trent -/

def Signs (S : Setting n) (T : TrentService) (text : String)
    (signatures : List (ℤ × SigmaSignature)) : Prop :=
  ∃ c d, c.parties = (List.ofFn fun j => (S.keys j).getPublicKeys) ∧
    T.signAnswer c text d = .ok signatures

theorem Signs.genuine (hT : S.Served T) {text : String} {signatures : List (ℤ × SigmaSignature)}
    (h : S.Signs T text signatures) (a : Answer) (j : Fin n) :
    Party.Genuine S.platform T.keys (S.keys j) (TrentMessage.answer a text signatures).read := by
  obtain ⟨c, d, hparties, hsigned⟩ := h
  have hentry : ∀ e ∈ signatures, ∃ k : Fin n, e.1 = (S.keys k).publicKey ∧
      ∃ nonce sCce draws, SigmaSigner.sign S.platform.hash
        ⟨some T.keys, some (S.keys k).getPublicKeys⟩ T.keys (getBytes text) nonce sCce draws
          = .ok e.2 := by
    intro e he
    obtain ⟨⟨key, i⟩, hki, hsign⟩ := (mem_collect hsigned).mp he
    have hkey := List.mem_of_getElem? (List.mem_zipIdx_iff_getElem?.mp hki)
    rw [hparties, List.mem_ofFn] at hkey
    obtain ⟨k, rfl⟩ := hkey
    obtain ⟨sign, hs, hsign⟩ := bind_eq_ok.mp hsign
    obtain rfl := Except.ok.inj hsign
    rw [hT.hash] at hs
    exact ⟨k, rfl, _, _, _, hs⟩
  obtain ⟨sign, hsign⟩ : ∃ sign, ((S.keys j).publicKey, sign) ∈ signatures := by
    have hlt : j.val < c.parties.length := by
      rw [hparties, List.length_ofFn]
      exact j.isLt
    have hki : ((S.keys j).getPublicKeys, j.val) ∈ c.parties.zipIdx := by
      rw [List.mem_zipIdx_iff_getElem?, hparties]
      simp
    obtain ⟨e, he⟩ := exists_of_collect hsigned hki
    have hmem : e ∈ signatures := (mem_collect hsigned).mpr ⟨_, hki, he⟩
    obtain ⟨sign, -, hs⟩ := bind_eq_ok.mp he
    obtain rfl := Except.ok.inj hs
    exact ⟨sign, hmem⟩
  -- the last entry under the key of the party is the one that counts
  have hfind : ∃ e, (signatures.reverse.find? fun e => e.1 == (S.keys j).publicKey) = some e := by
    refine Option.isSome_iff_exists.mp (List.find?_isSome.mpr ⟨_, List.mem_reverse.mpr hsign, ?_⟩)
    exact beq_iff_eq.mpr rfl
  obtain ⟨e, he⟩ := hfind
  have hpk : (e.1 == (S.keys j).publicKey) = true :=
    List.find?_some (p := fun e : ℤ × SigmaSignature => e.1 == (S.keys j).publicKey) he
  obtain ⟨k, hk, nonce, sCce, draws, hs⟩ :=
    hentry e (List.mem_reverse.mp (List.mem_of_find?_eq_some he))
  obtain rfl : k = j := S.distinct (hk.symm.trans (beq_iff_eq.mp hpk))
  refine ⟨text, e.2, nonce, sCce, draws, rfl, ?_, hs⟩
  unfold TrentMessage.read
  dsimp only
  rw [he]

/-! ### Who is told a verdict -/

def Ends (S : Setting n) (p : Party) : Verdict → Prop
  | .opened => p.contract.status = .finalized ∧ p.contract.AllSigned S.platform.hash ∧
      p.listening = false
  | .cancelled => p.contract.status = .cancelled ∧ p.listening = false

structure Handed (S : Setting n) (T : TrentService) (p : Party) (a : Answer) (text : String)
    (signatures : List (ℤ × SigmaSignature)) : Prop where
  signed : S.Signs T text signatures
  opened : ∀ sigs, a = .resolved sigs → ∃ c : ℤ, 1 ≤ c ∧ c ≤ n + 1 ∧
    c ∈ [p.getRound, p.getRound - 1, p.getRound - 2] ∧ ∀ k, S.Opened k c sigs

/-- **Who waits for Trent's word ends with it.** -/
theorem Upright.next_handed {j : Fin n} {p : Party} (hp : S.Upright j p) (hj : S.honest j = true)
    (hT : S.Served T) (hsigns : p.signs = true) (hwaits : p.Waits) {a : Answer} {text : String}
    {signatures : List (ℤ × SigmaSignature)} (h : S.Handed T p a text signatures) :
    S.Ends ((Party.machine S.platform).next p
      (.answer (TrentMessage.answer a text signatures).read S.trentK.publicKey)) a.verdict := by
  have htrent : p.trentK = S.trentK := hp.same.trentK
  have hpk : S.trentK.publicKey = T.keys.publicKey := by
    rw [hT.keys]
    rfl
  have hexpects : p.Expects T.keys := hwaits.expects ((congrArg _ htrent).trans hpk)
  have hgenuine : Party.Genuine S.platform T.keys p.key
      (TrentMessage.answer a text signatures).read := by
    rw [show p.key = S.keys j from hp.same.key]
    exact h.signed.genuine hT a j
  have hcancelled : a.name = "aborted" ∨ a.name = "honestyToken" →
      S.Ends ((Party.machine S.platform).next p
        (.answer (TrentMessage.answer a text signatures).read S.trentK.publicKey)) .cancelled := by
    intro hname
    have hkey : p.key.Valid := by
      rw [show p.key = S.keys j from hp.same.key]
      exact S.valid j hj
    have hauthentic : Recognised S.platform p (TrentMessage.answer a text signatures).read :=
      (recognised_iff hT.valid hT.owned hkey ((congrArg _ htrent).trans hpk) hgenuine).mpr hexpects
    have hphase : p.phase ≠ .choosing := by
      intro hphase
      rw [Party.signs, hphase] at hsigns
      exact absurd hsigns (by decide)
    have hhears : p.Hears S.platform (TrentMessage.answer a text signatures).read
        S.trentK.publicKey :=
      ⟨hphase, (congrArg _ htrent).symm, rfl, hauthentic⟩
    have hstop : ((p.setTrentK p.trentK).setStatus .cancelled).stop =
        { (p.setTrentK p.trentK).setStatus .cancelled with listening := false } := if_pos hsigns
    have hnext : (Party.machine S.platform).next p
        (.answer (TrentMessage.answer a text signatures).read S.trentK.publicKey) =
          { (p.setTrentK p.trentK).setStatus .cancelled with listening := false } := by
      change ((Party.handle S.platform _).exec p).2 = _
      have hkind : (TrentMessage.answer a text signatures).read.kind = .ok a.name := rfl
      rw [Party.handle, Act.exec_get_bind, if_pos hphase, answered_heard hhears,
        ProtocolResolve.verdict, hkind, Act.exec_ok_bind, if_pos hname, exec_aborted, hstop]
    rw [hnext]
    exact ⟨rfl, rfl⟩
  cases a with
  | resolved sigs =>
    obtain ⟨c, h1, hcn, hc, hopened⟩ := h.opened sigs rfl
    exact hp.next_resolves hj hsigns h1 hcn hc (hopened j) hT.valid hT.owned hpk hexpects
      ⟨rfl, hgenuine, rfl, rfl⟩
  | aborted m d => exact hcancelled (Or.inl rfl)
  | honestyToken m d => exact hcancelled (Or.inr rfl)

/-! ### What Trent sends -/

def Forwarded (S : Setting n) (s : Court n) (request : Request) : Prop :=
  ∃ i sign, request.contract.parties = (S.contract i).parties ∧
    request.contract.clauses = (S.contract i).clauses ∧ request.signature = some sign ∧
    .request request.round request.m sign ∈ (s.parties i).sent

/-- About the contract Trent is asked what the parties ask. -/
def Forwards (S : Setting n) (s : Court n) (e : CourtEvent n) : Prop :=
  ∀ mail request, e = .mail mail → mail.content = .ok (some request) →
    (∃ j, request.contract.contractId = (S.contract j).contractId) → S.Forwarded s request

/-- The signatures are those that open a claim of a party. -/
def Claimed (S : Setting n) (s : Court n) (sigs : List SigmaSignature) : Prop :=
  ∃ (i : Fin n) (c : ℤ) (claim : String) (sign : SigmaSignature),
    .request c claim sign ∈ (s.parties i).sent ∧ 1 ≤ c ∧ c ≤ n + 1 ∧ ∀ k, S.Opened k c sigs

/-- What Trent has about the contract, and what he has sent about it. -/
structure Judges (S : Setting n) (T : TrentService) (s : Court n) : Prop where
  file : ∀ j c st, s.office.solvers (S.contract j).contractId = some (c, st) →
    c.parties = (S.contract j).parties
  signed : ∀ j a text signatures,
    ⟨(S.contract j).contractId, .answer a text signatures⟩ ∈ s.office.sent →
      S.Signs T text signatures
  opened : ∀ j sigs text signatures,
    ⟨(S.contract j).contractId, .answer (.resolved sigs) text signatures⟩ ∈ s.office.sent →
      S.Claimed s sigs

theorem Claimed.mono {s s' : Court n} {sigs : List SigmaSignature} (h : S.Claimed s sigs)
    (hsent : ∀ i m, m ∈ (s.parties i).sent → m ∈ (s'.parties i).sent) : S.Claimed s' sigs := by
  obtain ⟨i, c, claim, sign, hmem, hrest⟩ := h
  exact ⟨i, c, claim, sign, hsent i _ hmem, hrest⟩

theorem opening_judges : S.Judges T S.opening where
  file _ _ _ h := absurd h (by simp [opening, TrentService.Office.initial])
  signed _ _ _ _ h := absurd h List.not_mem_nil
  opened _ _ _ _ h := absurd h List.not_mem_nil

theorem Judges.of_office {s s' : Court n} (hs : S.Judges T s) (hoffice : s'.office = s.office)
    (hsent : ∀ i m, m ∈ (s.parties i).sent → m ∈ (s'.parties i).sent) : S.Judges T s' where
  file := by
    rw [hoffice]
    exact hs.file
  signed := by
    rw [hoffice]
    exact hs.signed
  opened j sigs text signatures h := by
    rw [hoffice] at h
    exact (hs.opened j sigs text signatures h).mono hsent

theorem Forwarded.opens {s : Court n} (hh : ∀ k, S.honest k = true) (hT : S.Served T)
    (habort : T.toOrs "ABORT" = none) (hupright : ∀ j, S.Upright j (s.parties j))
    {request : Request} (h : S.Forwarded s request) {c : SigmaContract}
    (hc : c.parties = List.ofFn fun j => (S.keys j).getPublicKeys) {call : Call}
    (hcall : call.m = request.m) {sigs : List SigmaSignature}
    (hsigs : TrentSolver.resolveToken (T.arbiter c) call = .ok sigs) : S.Claimed s sigs := by
  obtain ⟨i, sign, -, -, -, hrequest⟩ := h
  have hasked := (hupright i).requests _ _ _ hrequest
  by_cases h1 : 1 ≤ request.round
  · obtain ⟨hcn, ors, hmade, htext⟩ := hasked.claim h1
    have hm : T.toOrs call.m = some ((List.ofFn ors).map some) := by
      rw [hcall, htext]
      exact hT.read _
    obtain ⟨sigs', hsigs', hopened⟩ := hT.opens hh hmade hm
    rw [TrentSolver.resolveToken_congr T (hc.trans (S.parties i).symm), hsigs',
      Except.ok.injEq] at hsigs
    subst hsigs
    exact ⟨i, request.round, request.m, sign, hrequest, h1, hcn, hopened⟩
  · refine absurd hsigs (TrentSolver.resolveToken_unread ?_ ?_ sigs)
    · show 0 < c.parties.length
      rw [hc, List.length_ofFn]
      exact i.pos
    · rw [hcall, hasked.abort (by omega)]
      exact habort

/-- **One step of the system.** -/
theorem Judges.next {s : Court n} (hs : S.Judges T s) (hh : ∀ k, S.honest k = true)
    (hT : S.Served T) (habort : T.toOrs "ABORT" = none)
    (hupright : ∀ j, S.Upright j (s.parties j)) {e : CourtEvent n} (he : S.Forwards s e) :
    S.Judges T ((S.court T).next s e) := by
  have hsent : ∀ i m, m ∈ (s.parties i).sent → m ∈ (((S.court T).next s e).parties i).sent := by
    intro i m hm
    rcases next_party (T := T) s e i with hsame | ⟨e', e'', -, -, hnext⟩
    · rwa [hsame]
    · rw [hnext]
      exact mem_sent_next (hupright i).ready hm e''
  have hoffice := next_office (S := S) (T := T) s e
  cases e with
  | party e => exact hs.of_office hoffice hsent
  | tell j m => exact hs.of_office hoffice hsent
  | mail mail =>
    have hhandles := TrentService.notify_handles T s.office mail
    have hnext : ((S.court T).next s (.mail mail)).office = T.office.next s.office mail := hoffice
    generalize T.office.next s.office mail = o at hhandles hnext
    cases hhandles with
    | ignored => exact hs.of_office hnext hsent
    | solved request hcontent hchecks posts hwritten =>
      have hforwarded : (∃ j, request.contract.contractId = (S.contract j).contractId) →
          S.Forwarded s request := he mail request rfl hcontent
      have hfile : ∀ j, request.contract.contractId = (S.contract j).contractId →
          (TrentService.fileOf s.office.solvers request).1.parties = (S.contract j).parties := by
        intro j hid
        unfold TrentService.fileOf
        rcases hsolver : s.office.solvers request.contract.contractId with _ | ⟨c, st⟩
        · obtain ⟨i, -, hparties, -⟩ := hforwarded ⟨j, hid⟩
          exact hparties.trans ((S.parties i).trans (S.parties j).symm)
        · rw [hid] at hsolver
          exact hs.file j c st hsolver
      constructor
      · intro j c st h
        rw [hnext] at h
        dsimp only at h
        split at h
        · rename_i hid
          obtain ⟨rfl, -⟩ := Prod.mk.inj (Option.some.inj h)
          exact hfile j hid.symm
        · exact hs.file j c st h
      · intro j a text signatures h
        rw [hnext] at h
        rcases List.mem_append.mp h with hold | hnew
        · exact hs.signed j a text signatures hold
        · have hid := hwritten.id_eq hnew
          obtain ⟨-, hsign⟩ := hwritten.answered hnew
          obtain ⟨i, -, hparties, -⟩ := hforwarded ⟨j, hid.symm⟩
          exact ⟨_, _, hparties.trans (S.parties i), hsign⟩
      · intro j sigs text signatures h
        rw [hnext] at h
        rcases List.mem_append.mp h with hold | hnew
        · exact (hs.opened j sigs text signatures hold).mono hsent
        · have hid := hwritten.id_eq hnew
          obtain ⟨hanswer, -⟩ := hwritten.answered hnew
          have hclaimed := (hforwarded ⟨j, hid.symm⟩).opens hh hT habort hupright
            ((hfile j hid.symm).trans (S.parties j)) rfl
            (TrentSolver.resolveToken_of_resolved hanswer)
          exact hclaimed.mono hsent

/-! ### One judgement -/

def Tells (S : Setting n) (s : Court n) (j : Fin n) (m : ℕ) (v : Verdict) : Prop :=
  ∃ post, s.office.sent[m]? = some post ∧ post.contractId = (S.contract j).contractId ∧
    post.message.verdict = some v

def Spared (S : Setting n) (j : Fin n) (s : Court n) (e : CourtEvent n) : Prop :=
  ∀ m, e = .tell j m → ¬ S.Tells s j m .opened

theorem run_court_waits {j : Fin n} {es : List (CourtEvent n)}
    (h : (S.court T).Along (fun _ => S.Spared j) S.opening es) :
    (((S.court T).run S.opening es).parties j).Waits := by
  have hstep : ∀ pre e, (((S.court T).run S.opening pre).parties j).Waits →
      S.Spared j ((S.court T).run S.opening pre) e →
      (((S.court T).next ((S.court T).run S.opening pre) e).parties j).Waits := by
    intro pre e hwaits hspared
    have hsame : Same (S.initial j) _ := run_same (T := T) pre j
    have htrent : (((S.court T).run S.opening pre).parties j).trentK = S.trentK := hsame.trentK
    generalize (S.court T).run S.opening pre = s at hwaits hspared htrent ⊢
    rcases next_party (T := T) s e j with hsame | ⟨e', e'', htold, hlocal, hnext⟩
    · rwa [hsame]
    · rw [hnext]
      refine next_waits ?_ hwaits
      rintro ⟨a, rfl, -, -, -, hkind, -⟩
      rw [htrent] at hlocal
      rcases told_cases htold hlocal with ⟨m, post, rfl, hpost, hid, hread⟩ | ⟨-, hother⟩
      · refine hspared m rfl ⟨post, hpost, hid, ?_⟩
        obtain ⟨rfl, -⟩ := Event.answer.inj hread
        generalize post.message = message at hkind
        cases message with
        | dishonest sender => exact absurd hkind (by simp [TrentMessage.read])
        | answer a text signatures =>
          cases a with
          | resolved sigs => rfl
          | aborted m d => exact absurd (Except.ok.inj hkind) (by simp [Answer.name])
          | honestyToken m d => exact absurd (Except.ok.inj hkind) (by simp [Answer.name])
      · exact absurd rfl (hother a)
  exact (S.court T).invariant_history (I := fun _ s => (s.parties j).Waits) (Or.inl rfl) hstep es h

theorem run_court_upright (hh : ∀ k, S.honest k = true) (hfresh : S.Unsigned)
    (es : List (CourtEvent n)) (j : Fin n) :
    S.Upright j (((S.court T).run S.opening es).parties j) := by
  rw [run_parties]
  exact run_upright hh hfresh _ j

/-- What Trent has about the contract, at every point of a run. -/
theorem run_judges (hh : ∀ k, S.honest k = true) (hfresh : S.Unsigned) (hT : S.Served T)
    (habort : T.toOrs "ABORT" = none) {es : List (CourtEvent n)}
    (hes : (S.court T).Along (fun _ => S.Forwards) S.opening es) :
    S.Judges T ((S.court T).run S.opening es) := by
  have hstep : ∀ pre e, S.Judges T ((S.court T).run S.opening pre) →
      S.Forwards ((S.court T).run S.opening pre) e →
      S.Judges T ((S.court T).next ((S.court T).run S.opening pre) e) :=
    fun pre e hs he => hs.next hh hT habort (run_court_upright hh hfresh pre) he
  exact (S.court T).invariant_history (I := fun _ s => S.Judges T s) opening_judges hstep es hes

theorem Tells.given {s : Court n} {j : Fin n} {m : ℕ} {v : Verdict} (h : S.Tells s j m v) :
    S.Given s j v := by
  obtain ⟨post, hpost, hid, hv⟩ := h
  exact given_of_told hpost hid hv

theorem next_tell (hT : S.Served T) {s : Court n} {j : Fin n} {m : ℕ} {post : TrentService.Post}
    (hpost : s.office.sent[m]? = some post) (hid : post.contractId = (S.contract j).contractId) :
    ((S.court T).next s (.tell j m)).parties j = (Party.machine S.platform).next (s.parties j)
      (.answer post.message.read S.trentK.publicKey) := by
  have htold : S.told T s (.tell j m) =
      some (.act j (.answer post.message.read S.trentK.publicKey)) := by
    unfold told
    dsimp only
    rw [hpost]
    dsimp only
    rw [if_pos hid, hT.keys]
    rfl
  have hlocal : S.localEvent s.parties (.act j (.answer post.message.read S.trentK.publicKey)) =
      some (j, .answer post.message.read S.trentK.publicKey) := rfl
  rw [next_parties, htold]
  show S.machine.next s.parties _ j = _
  rw [next_of_some S hlocal, Function.update_self]

/-- **A party that is told a verdict ends with it**, when it waits for Trent's word. -/
theorem Tells.ends (hh : ∀ k, S.honest k = true) (hT : S.Served T) {s : Court n}
    (hjudges : S.Judges T s) (hnet : S.NetInv s.parties) {j : Fin n} {m : ℕ} {v : Verdict}
    (h : S.Tells s j m v) (hp : S.Upright j (s.parties j)) (hsigns : (s.parties j).signs = true)
    (hwaits : (s.parties j).Waits) :
    S.Ends (((S.court T).next s (.tell j m)).parties j) v := by
  obtain ⟨⟨id, message⟩, hpost, hid, hv⟩ := h
  rw [next_tell hT hpost hid]
  dsimp only at hid hv
  subst hid
  have hmem := List.mem_of_getElem? hpost
  cases message with
  | dishonest sender => exact absurd hv (by simp [TrentMessage.verdict])
  | answer a text signatures =>
    obtain rfl := Option.some.inj hv
    refine hp.next_handed (hh j) hT hsigns hwaits ⟨hjudges.signed j a text signatures hmem, ?_⟩
    rintro sigs rfl
    obtain ⟨i, c, claim, sign, hrequest, h1, hcn, hopened⟩ :=
      hjudges.opened j sigs text signatures hmem
    exact ⟨c, h1, hcn, hnet.asked (hh i) (hh j) hrequest hsigns, hopened⟩

theorem next_tell_ne (T : TrentService) (s : Court n) {j k : Fin n} (h : k ≠ j) (m : ℕ) :
    ((S.court T).next s (.tell j m)).parties k = s.parties k := by
  rcases next_party (T := T) s (.tell j m) k with hsame | ⟨e', e'', htold, hlocal, -⟩
  · exact hsame
  · rcases told_cases htold hlocal with ⟨m', post, heq, -⟩ | ⟨⟨e₀, heq⟩, -⟩
    · exact absurd (CourtEvent.tell.inj heq).1.symm h
    · exact absurd heq (by simp)

theorem next_mail_parties (T : TrentService) (s : Court n) (mail : TrentService.Mail) :
    ((S.court T).next s (.mail mail)).parties = s.parties := next_parties s _

theorem Tells.next_tell {s : Court n} {j : Fin n} {m : ℕ} {v : Verdict} (h : S.Tells s j m v)
    (T : TrentService) (k : Fin n) (m' : ℕ) : S.Tells ((S.court T).next s (.tell k m')) j m v := by
  have hoffice : ((S.court T).next s (.tell k m')).office = s.office := next_office s _
  unfold Tells
  rw [hoffice]
  exact h

/-- **Everybody gets the same judgement**, and it is the end: in every run there is one verdict,
and whoever is in the signing step when he is told a verdict is told this one, and his contract
has come to the end it says.  After signatures from Trent he may no longer recognise him. -/
theorem judgement_agrees (S : Setting n) (hh : ∀ k, S.honest k = true) (hfresh : S.Unsigned)
    (T : TrentService) (hT : S.Served T) (habort : T.toOrs "ABORT" = none)
    (es : List (CourtEvent n)) (hes : (S.court T).Along (fun _ => S.Forwards) S.opening es) :
    ∃ v, ∀ pre j m post, es = pre ++ .tell j m :: post →
      ∀ v', S.Tells ((S.court T).run S.opening pre) j m v' →
        (((S.court T).run S.opening pre).parties j).signs = true →
        (S.court T).Along (fun _ => S.Spared j) S.opening pre →
          v' = v ∧ S.Ends (((S.court T).run S.opening (pre ++ [.tell j m])).parties j) v := by
  have hends : ∀ pre j m post, es = pre ++ .tell j m :: post →
      ∀ v, S.Tells ((S.court T).run S.opening pre) j m v →
        (((S.court T).run S.opening pre).parties j).signs = true →
        (S.court T).Along (fun _ => S.Spared j) S.opening pre →
          S.Ends (((S.court T).run S.opening (pre ++ [.tell j m])).parties j) v := by
    rintro pre j m post rfl v htells hsigns hspared
    have hjudges := run_judges hh hfresh hT habort (hes.of_prefix (List.prefix_append pre _))
    have hnet : S.NetInv ((S.court T).run S.opening pre).parties := by
      rw [run_parties]
      exact run_netInv _
    have hupright := run_court_upright hh hfresh (T := T) pre j
    rw [Machine.run_concat]
    exact htells.ends hh hT hjudges hnet hupright hsigns (run_court_waits hspared)
  have hgiven : ∀ pre j m post, es = pre ++ .tell j m :: post →
      ∀ v, S.Tells ((S.court T).run S.opening pre) j m v →
        S.Given ((S.court T).run S.opening es) j v := by
    rintro pre j m post rfl v htells
    rw [Machine.run_append]
    exact htells.given.run _
  by_cases h : ∃ j v, S.Given ((S.court T).run S.opening es) j v
  · obtain ⟨k, v, hk⟩ := h
    refine ⟨v, fun pre j m post heq v' htells hsigns hspared => ?_⟩
    obtain rfl : v' = v := given_unique (hgiven pre j m post heq v' htells) hk
    exact ⟨rfl, hends pre j m post heq v' htells hsigns hspared⟩
  · exact ⟨.opened, fun pre j m post heq v' htells _ _ =>
      absurd ⟨j, v', hgiven pre j m post heq v' htells⟩ h⟩

/-! ### The first request -/

theorem exists_signAnswer (hreg : Registered T.keys T.keys) (ho : T.keys.Owned)
    {c : SigmaContract} (hc : ∀ k ∈ c.parties, k.Valid) (text : String) (d : TrentDraws) :
    ∃ signatures, T.signAnswer c text d = .ok signatures := by
  refine collect_total fun ⟨k, i⟩ hki => ?_
  have hk := hc k (List.mem_of_getElem? (List.mem_zipIdx_iff_getElem?.mp hki))
  obtain ⟨sign, hsign, -⟩ := sign_accepted T.hash hreg ho hk (getBytes text) (d.sign i).1
    (d.sign i).2.1 (d.sign i).2.2
  refine ⟨(k.publicKey, sign), ?_⟩
  dsimp only
  rw [hsign, ok_bind, pure_eq]

/-- What an honest party asks is judged, when nobody has asked about the contract before. -/
theorem Asked.judged (hh : ∀ k, S.honest k = true) (hT : S.Served T)
    (hreg : Registered T.keys T.keys) {i : Fin n} {c : ℤ} {text : String} {sign : SigmaSignature}
    (h : S.Asked i c text sign) (hc : 0 ≤ c) {contract : SigmaContract}
    (hparties : contract.parties = (S.contract i).parties)
    (hclauses : contract.clauses = (S.contract i).clauses) {mails : List TrentService.Mail}
    (hfirst : ∀ mail ∈ mails, ¬ mail.Names contract.contractId) (d : TrentDraws) :
    ((T.office.run .initial (mails ++ [⟨.ok (some ⟨c, contract, text, some sign⟩),
        (S.keys i).publicKey, d⟩])).about contract.contractId).2.map TrentMessage.verdict =
      if c = 0 then [some .cancelled] else if c = 1 then [some .opened] else [] := by
  have hvalid : ∀ k ∈ contract.parties, k.Valid := by
    rw [hparties, S.parties i]
    intro k hk
    obtain ⟨k, rfl⟩ := List.mem_ofFn.mp hk
    exact (S.valid k (hh k)).getPublicKeys
  have hopens : ∀ call : Call, call.m = text → c = 1 → ∃ sigs,
      TrentSolver.resolveToken (T.arbiter contract) call = .ok sigs := by
    rintro call hcall rfl
    obtain ⟨-, ors, hmade, htext⟩ := h.claim le_rfl
    have hm : T.toOrs call.m = some ((List.ofFn ors).map some) := by
      rw [hcall, htext]
      exact hT.read _
    obtain ⟨sigs, hsigs, -⟩ := hT.opens hh hmade hm
    rw [TrentSolver.resolveToken_congr T hparties]
    exact ⟨sigs, hsigs⟩
  exact TrentService.about_first ⟨c, contract, text, some sign⟩ hfirst rfl
    (hT.checks_asked hh h hparties hclauses) hc (hopens _ rfl)
    fun text' => exists_signAnswer hreg hT.owned hvalid text' d

theorem Upright.request_nonneg {j : Fin n} {p : Party} (hp : S.Upright j p) {c : ℤ} {text : String}
    {sign : SigmaSignature} (h : .request c text sign ∈ p.sent) : 0 ≤ c := by
  obtain ⟨hc, -⟩ := hp.rounds.request c text sign h
  have hsigns : p.signs = true := by
    by_contra hs
    rw [(hp.rounds.outside (by simpa using hs)).2] at h
    exact absurd h List.not_mem_nil
  have hround := hp.rounds.inside hsigns
  omega

/-- **The first request** about the contract is judged when it is an abort or of the first round:
one verdict is sent to all.  A request of a later round is not answered. -/
theorem first_request_judged (S : Setting n) (hh : ∀ k, S.honest k = true) (hfresh : S.Unsigned)
    (T : TrentService) (hT : S.Served T) (hreg : Registered T.keys T.keys)
    (es : List (CourtEvent n)) {i : Fin n} {c : ℤ} {text : String} {sign : SigmaSignature}
    (hrequest : .request c text sign ∈ (((S.court T).run S.opening es).parties i).sent)
    {contract : SigmaContract} (hparties : contract.parties = (S.contract i).parties)
    (hclauses : contract.clauses = (S.contract i).clauses)
    (hfirst : ∀ mail, .mail mail ∈ es → ¬ mail.Names contract.contractId) (d : TrentDraws) :
    (((S.court T).run S.opening (es ++ [.mail ⟨.ok (some ⟨c, contract, text, some sign⟩),
        (S.keys i).publicKey, d⟩])).office.about contract.contractId).2.map TrentMessage.verdict =
      if c = 0 then [some .cancelled] else if c = 1 then [some .opened] else [] := by
  have hupright := run_court_upright hh hfresh (T := T) es i
  rw [run_office, List.filterMap_append]
  refine (hupright.requests c text sign hrequest).judged hh hT hreg (hupright.request_nonneg hrequest)
    hparties hclauses (fun m hm => ?_) d
  obtain ⟨e, he, hmail⟩ := List.mem_filterMap.mp hm
  cases e with
  | mail mail =>
    obtain rfl := Option.some.inj hmail
    exact hfirst mail he
  | party e => exact absurd hmail (by simp [CourtEvent.mail?])
  | tell j k => exact absurd hmail (by simp [CourtEvent.mail?])

/-! ### Two parties -/

theorem run_party {es : List (NetEvent n)} (h : ∀ e ∈ es, S.partyEvent e = some e) (s : Court n) :
    (S.court T).run s (es.map .party) = ⟨S.machine.run s.parties es, s.office⟩ := by
  induction es generalizing s with
  | nil => rfl
  | cons e es ih =>
    have htold : S.told T s (.party e) = some e := h e List.mem_cons_self
    have hnext : (S.court T).next s (.party e) = ⟨S.machine.next s.parties e, s.office⟩ := by
      show ((S.court T).step s (.party e)).2 = _
      unfold court
      dsimp only
      rw [htold]
      rfl
    rw [List.map_cons, Machine.run_cons, hnext, ih fun e' he' => h e' (List.mem_cons_of_mem e he')]
    rfl

theorem sampleService_registered : Registered sampleService.keys sampleService.keys := by
  have hreg := sampleKey_registered (x := 1002) 1002 (by decide +kernel)
  exact ⟨hreg.party, hreg.digits, hreg.trent.of_getPublicKeys, hreg.fits⟩

/-- Both have sent their first promises, and the first party has got the other's. -/
def sampleMet : List (Exchange.Event 2 Draws) :=
  [.start 0 sampleDraws, .start 1 sampleDraws, sampleDeliver 1 0 0]

def samplePleaded : List (CourtEvent 2) := (sampleAsking sampleMet).map .party

theorem samplePleaded_run : (servedSetting.court sampleService).run servedSetting.opening
    samplePleaded = ⟨servedSetting.machine.run servedSetting.initial (sampleAsking sampleMet),
      .initial⟩ := by
  refine run_party ?_ _
  simp only [sampleAsking, sampleCreated, sampleMet, sampleDeliver, List.map_cons, List.map_nil,
    List.cons_append, List.nil_append, List.forall_mem_cons]
  exact ⟨rfl, rfl, rfl, rfl, rfl, rfl, rfl, rfl, fun _ h => absurd h List.not_mem_nil⟩

def sampleMail (text : String) (sign : SigmaSignature) : TrentService.Mail :=
  ⟨.ok (some ⟨1, servedSetting.contract 0, text, some sign⟩), (servedSetting.keys 0).publicKey,
    ⟨0, "[B@1b6d3586", fun k => k + 1, fun _ => (7, 8, ⟨1, 2, 3, 4, 5, 6⟩)⟩⟩

theorem sampleMet_round : ((Exchange.machine 2 Draws).run (fun _ => Exchange.Member.initial)
    sampleMet 0).round = 2 := by
  decide +kernel

theorem samplePleaded_asks : ∃ text sign,
    .request 1 text sign ∈ (((servedSetting.court sampleService).run servedSetting.opening
      samplePleaded).parties 0).sent ∧
    ∀ j, (((servedSetting.court sampleService).run servedSetting.opening
      samplePleaded).parties j).signs = true := by
  obtain ⟨text, sign, hrequest, -, hsigns⟩ := sampleAsking_run sampleMet sampleMet_round (by decide)
  rw [show ((2 : ℕ) : ℤ) - 1 = 1 by decide] at hrequest
  rw [samplePleaded_run]
  exact ⟨text, sign, hrequest, hsigns⟩

theorem samplePleaded_party {e : CourtEvent 2} (h : e ∈ samplePleaded) : ∃ e₀, e = .party e₀ := by
  obtain ⟨e₀, -, he⟩ := List.mem_map.mp h
  exact ⟨e₀, he.symm⟩

/-- The claim of the first round is opened. -/
theorem first_request_judged_sample : ∃ text sign,
    .request 1 text sign ∈ (((servedSetting.court sampleService).run servedSetting.opening
      samplePleaded).parties 0).sent ∧
    (((servedSetting.court sampleService).run servedSetting.opening
      (samplePleaded ++ [.mail (sampleMail text sign)])).office.about
        (servedSetting.contract 0).contractId).2.map TrentMessage.verdict = [some .opened] := by
  obtain ⟨text, sign, hsent, -⟩ := samplePleaded_asks
  have hS := servedSetting_optimistic
  have hfirst : ∀ mail, .mail mail ∈ samplePleaded →
      ¬ mail.Names (servedSetting.contract 0).contractId := by
    intro mail hmail
    obtain ⟨e₀, he⟩ := samplePleaded_party hmail
    exact absurd he (by simp)
  exact ⟨text, sign, hsent, first_request_judged servedSetting hS.honest hS.fresh sampleService
    servedSetting_served sampleService_registered samplePleaded hsent rfl rfl hfirst _⟩

def sampleAnswered (text : String) (sign : SigmaSignature) : List (CourtEvent 2) :=
  samplePleaded ++ [.mail (sampleMail text sign)]

theorem sampleAnswered_tells {text : String} {sign : SigmaSignature}
    (hsent : .request 1 text sign ∈ (((servedSetting.court sampleService).run servedSetting.opening
      samplePleaded).parties 0).sent) :
    ∃ m, ∀ j, servedSetting.Tells ((servedSetting.court sampleService).run servedSetting.opening
      (sampleAnswered text sign)) j m .opened := by
  have hS := servedSetting_optimistic
  have hupright := run_court_upright hS.honest hS.fresh (T := sampleService) samplePleaded 0
  have hoffice := run_office (S := servedSetting) (T := sampleService) servedSetting.opening
    (sampleAnswered text sign)
  rw [show (sampleAnswered text sign).filterMap CourtEvent.mail? = [sampleMail text sign] from rfl]
    at hoffice
  have hjudged := (hupright.requests 1 text sign hsent).judged hS.honest servedSetting_served
    sampleService_registered (by decide) rfl rfl (fun _ h => absurd h List.not_mem_nil)
    ⟨0, "[B@1b6d3586", fun k => k + 1, fun _ => (7, 8, ⟨1, 2, 3, 4, 5, 6⟩)⟩
  have hmem : some Verdict.opened ∈ [some Verdict.opened] := List.mem_singleton_self _
  rw [← show _ = [some Verdict.opened] from hjudged] at hmem
  obtain ⟨message, hmessage, hv⟩ := List.mem_map.mp hmem
  obtain ⟨m, hm⟩ := List.mem_iff_getElem?.mp (TrentService.Office.mem_about.mp hmessage)
  exact ⟨m, fun j => ⟨_, (congrArg (fun o => o.sent[m]?) hoffice).trans hm, contractId_eq 0 j, hv⟩⟩

theorem sampleAnswered_forwards {text : String} {sign : SigmaSignature}
    (hsent : .request 1 text sign ∈ (((servedSetting.court sampleService).run servedSetting.opening
      samplePleaded).parties 0).sent) :
    (servedSetting.court sampleService).Along (fun _ => servedSetting.Forwards)
      servedSetting.opening (sampleAnswered text sign) := by
  rw [sampleAnswered, Machine.along_concat]
  constructor
  · rintro pre e post heq mail request rfl
    obtain ⟨e₀, he⟩ := samplePleaded_party (heq ▸ List.mem_append_right pre List.mem_cons_self)
    exact absurd he (by simp)
  · rintro mail request hmail hcontent -
    rw [← CourtEvent.mail.inj hmail] at hcontent
    obtain rfl := Option.some.inj (Except.ok.inj hcontent)
    exact ⟨0, sign, rfl, rfl, rfl, hsent⟩

theorem sampleAnswered_spared (text : String) (sign : SigmaSignature) (j : Fin 2) :
    (servedSetting.court sampleService).Along (fun _ => servedSetting.Spared j)
      servedSetting.opening (sampleAnswered text sign) := by
  rw [sampleAnswered, Machine.along_concat]
  refine ⟨?_, fun _ h => absurd h (by simp)⟩
  rintro pre e post heq k rfl
  obtain ⟨e₀, he⟩ := samplePleaded_party (heq ▸ List.mem_append_right pre List.mem_cons_self)
  exact absurd he (by simp)

theorem sampleAnswered_parties (text : String) (sign : SigmaSignature) :
    ((servedSetting.court sampleService).run servedSetting.opening
      (sampleAnswered text sign)).parties =
        servedSetting.machine.run servedSetting.initial (sampleAsking sampleMet) := by
  rw [sampleAnswered, Machine.run_concat, next_mail_parties, samplePleaded_run]

/-- **The second party gets a signature from Trent**, so the contract of the first one was never
cancelled. -/
theorem nobody_both_sample : ∃ text sign m,
    (servedSetting.court sampleService).Happens (servedSetting.HandsOver sampleService 1)
      servedSetting.opening (sampleAnswered text sign ++ [.tell 1 m]) ∧
    ¬ ∃ pre, pre <+: sampleAnswered text sign ++ [.tell 1 m] ∧
      (((servedSetting.court sampleService).run servedSetting.opening pre).parties
        0).contract.status = .cancelled := by
  obtain ⟨text, sign, hsent, hsigns⟩ := samplePleaded_asks
  obtain ⟨m, htells⟩ := sampleAnswered_tells hsent
  have hS := servedSetting_optimistic
  have hjudges := run_judges hS.honest hS.fresh servedSetting_served (by decide)
    (sampleAnswered_forwards hsent)
  have hwaits := run_court_waits (sampleAnswered_spared text sign 1)
  have hupright := run_court_upright hS.honest hS.fresh (T := sampleService)
    (sampleAnswered text sign) 1
  have hnet : servedSetting.NetInv ((servedSetting.court sampleService).run servedSetting.opening
      (sampleAnswered text sign)).parties := by
    rw [run_parties]
    exact run_netInv _
  have hsigns1 : (((servedSetting.court sampleService).run servedSetting.opening
      (sampleAnswered text sign)).parties 1).signs = true := by
    rw [sampleAnswered, Machine.run_concat, next_mail_parties]
    exact hsigns 1
  have hends := (htells 1).ends hS.honest servedSetting_served hjudges hnet hupright hsigns1 hwaits
  -- the second party had no signature of the first one before
  have hnone : ((((servedSetting.court sampleService).run servedSetting.opening
      (sampleAnswered text sign)).parties 1).contract.signatures
        (servedSetting.keys 0).getPublicKeys).isSome = false := by
    rw [sampleAnswered_parties, sampleAsking_signed]
    decide +kernel
  have hhands : (servedSetting.court sampleService).Happens
      (servedSetting.HandsOver sampleService 1) servedSetting.opening
        (sampleAnswered text sign ++ [.tell 1 m]) := by
    refine ⟨sampleAnswered text sign, .tell 1 m, [], rfl, ⟨m, rfl⟩, fun heq => ?_⟩
    have hsame := (run_same (S := servedSetting) (T := sampleService)
      (sampleAnswered text sign ++ [.tell 1 m]) 1)
    rw [Machine.run_concat] at hsame
    obtain ⟨s, hs, -⟩ := hends.2.1 (servedSetting.keys 0).getPublicKeys (by
      rw [parties_of_same hsame]
      exact List.mem_cons_self)
    rw [← heq, hs] at hnone
    exact absurd hnone (by simp)
  have hnew : ∀ j, (servedSetting.contract j).status ≠ .cancelled :=
    fun _ => show Status.signing ≠ .cancelled by decide
  exact ⟨text, sign, m, hhands, fun hcancelled =>
    nobody_both servedSetting sampleService hnew _ 0 1 ⟨hcancelled, hhands⟩⟩

/-- **Both parties are told** what Trent has opened, and both have a finalized contract. -/
theorem judgement_agrees_sample : ∃ text sign m,
    .request 1 text sign ∈ (((servedSetting.court sampleService).run servedSetting.opening
      samplePleaded).parties 0).sent ∧
    ∀ j, (((servedSetting.court sampleService).run servedSetting.opening
      (sampleAnswered text sign ++ [.tell 0 m] ++ [.tell 1 m])).parties j).contract.status =
        .finalized := by
  obtain ⟨text, sign, hsent, hsigns⟩ := samplePleaded_asks
  obtain ⟨m, htells⟩ := sampleAnswered_tells hsent
  have hS := servedSetting_optimistic
  have hforwards : (servedSetting.court sampleService).Along (fun _ => servedSetting.Forwards)
      servedSetting.opening (sampleAnswered text sign ++ [.tell 0 m] ++ [.tell 1 m]) := by
    rw [Machine.along_concat, Machine.along_concat]
    exact ⟨⟨sampleAnswered_forwards hsent, fun _ _ h => absurd h (by simp)⟩,
      fun _ _ h => absurd h (by simp)⟩
  have hspared := sampleAnswered_spared text sign
  obtain ⟨v, hall⟩ := judgement_agrees servedSetting hS.honest hS.fresh sampleService
    servedSetting_served (by decide) _ hforwards
  have hmail : ∀ j, (((servedSetting.court sampleService).run servedSetting.opening
      (sampleAnswered text sign)).parties j).signs = true := by
    intro j
    rw [sampleAnswered, Machine.run_concat, next_mail_parties]
    exact hsigns j
  obtain ⟨rfl, hends0⟩ :=
    hall _ 0 m [.tell 1 m] (List.append_assoc _ _ _) _ (htells 0) (hmail 0) (hspared 0)
  have htells1 : servedSetting.Tells ((servedSetting.court sampleService).run servedSetting.opening
      (sampleAnswered text sign ++ [.tell 0 m])) 1 m .opened := by
    rw [Machine.run_concat]
    exact (htells 1).next_tell sampleService 0 m
  have hsigns1 : (((servedSetting.court sampleService).run servedSetting.opening
      (sampleAnswered text sign ++ [.tell 0 m])).parties 1).signs = true := by
    rw [Machine.run_concat, next_tell_ne sampleService _ (by decide)]
    exact hmail 1
  have hspared1 : (servedSetting.court sampleService).Along (fun _ => servedSetting.Spared 1)
      servedSetting.opening (sampleAnswered text sign ++ [.tell 0 m]) := by
    rw [Machine.along_concat]
    exact ⟨hspared 1, fun k h => absurd (CourtEvent.tell.inj h).1 (by decide)⟩
  obtain ⟨-, hends1⟩ := hall _ 1 m [] rfl _ htells1 hsigns1 hspared1
  refine ⟨text, sign, m, hsent, fun j => ?_⟩
  by_cases hj : j = 1
  · rw [hj]
    exact hends1.1
  · obtain rfl : j = 0 := by omega
    rw [Machine.run_concat, next_tell_ne sampleService _ (by decide)]
    exact hends0.1

end Setting

end SXP.Sigma
