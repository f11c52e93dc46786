import SXP.Sigma.Continuing
import SXP.Sigma.Rounds
import SXP.Sigma.StoredPromise

/-!
# Sending that is heard at once

An advertisement is given to the listeners of the peer that publishes it, in the call that
publishes it.  So while the listener of the signing step sends a round, it can be called again,
with its own message or with what another listener of the peer answers, and the call inside reads
and writes the same round as the one that waits for it.

A state has the calls that wait, and a turn lets an event happen, or lets the innermost call go on
with its loop.  `advances_as_allowed` is about every order of turns: a call that returns has left
the party in a round of which it waits for a promise, and each round is sent once.
-/

namespace SXP.Sigma

open SXP.Lib SXP.Lib.Java

/-- A call that sends something and waits: the one that begins the signing step, or one of its
listener. -/
inductive Frame where
  | first
  | listener
deriving DecidableEq, Repr

/-- A party and its calls that wait, the innermost first. -/
structure Calls where
  party : Party
  frames : List Frame

/-- An event, at any time, or the end of what the innermost call waits for. -/
inductive Turn where
  | event (e : Event)
  | returns (d : Draws)
  | throws

namespace ProtocolSign

variable (P : Platform)

/-- The loop of the listener up to the next message; false when the loop is left. -/
def goOn (d : Draws) : Act Party Bool := do
  let p ← get
  if p.round ≤ p.N + 1 ∧ p.claimFormed ∧ p.contract.status = .signing then
    modify fun p => { p with round := p.round + 1 }
    sendMessage P d
    return true
  else return false

def hear (message : SignMessage) (senderId : ℤ) (d : Draws) : Act Party Bool := do
  verifyAndStoreSignature P message senderId
  goOn P d

def begin (d : Draws) : Act Party Bool := do
  modify fun p => { p with phase := .running }
  sendMessage P d
  return true

end ProtocolSign

namespace Calls

variable (P : Platform)

/-- A call goes on until it waits or returns.  An exception ends all the calls that wait for it. -/
def proceed (c : Calls) (frame : Frame) (x : Act Party Bool) : Bool × Calls :=
  match x.exec c.party with
  | (.ok true, p) => (false, ⟨p, frame :: c.frames⟩)
  | (.ok false, p) => (true, ⟨p, c.frames⟩)
  | (.error _, p) => (false, ⟨p, []⟩)

/-- An event that the signing step has no part in. -/
def elsewhere (c : Calls) (e : Event) : Bool × Calls :=
  match (Party.handle P e).exec c.party with
  | (.ok _, p) => (false, ⟨p, c.frames⟩)
  | (.error _, p) => (false, ⟨p, []⟩)

/-- The answer says whether a call of the listener returns. -/
def step (c : Calls) : Turn → Bool × Calls
  | .event (.start d) =>
      if c.party.phase = .created then c.proceed .first (ProtocolSign.begin P d) else (false, c)
  | .event (.receive message senderId d) =>
      if c.party.signs then c.proceed .listener (ProtocolSign.hear P message senderId d)
      else (false, c)
  | .event e => c.elsewhere P e
  | .returns d =>
      match c.frames with
      | [] => (false, c)
      | .first :: rest => (false, ⟨c.party, rest⟩)
      | .listener :: rest => proceed ⟨c.party, rest⟩ .listener (ProtocolSign.goOn P d)
  | .throws => (false, ⟨c.party, []⟩)

def machine : Machine Calls Turn Bool where
  step := step P

def initial (key trentK : ElGamalKey) (contract : SigmaContract) (chooseRound : ℤ) : Calls :=
  ⟨Party.initial key trentK contract chooseRound, []⟩

end Calls

/-! ### What calls leave as it was -/

def Outgoing.signingRound : Outgoing → Option ℤ
  | .signing round _ => some round
  | .request _ _ _ => none

namespace Party

variable {P : Platform} {p p' q : Party}

def rounds (p : Party) : List ℤ := p.messages.filterMap Outgoing.signingRound

theorem rounds_send_signing (p : Party) (round : ℤ) (content : List (ℤ × Payload)) :
    (p.send (.signing round content)).rounds = p.rounds ++ [round] := by
  unfold rounds messages send
  rw [List.filter_append, List.filterMap_append]
  rfl

/-- The round and the phase stay, nothing is signed, and no promise is lost. -/
structure Follows (p p' : Party) : Prop where
  key : p'.key = p.key
  parties : p'.contract.parties = p.contract.parties
  phase : p'.phase = p.phase
  round : p'.round = p.round
  messages : p'.messages = p.messages
  promises : ∀ j i o, p.roundReceived j i = some o → ∃ o, p'.roundReceived j i = some o

theorem Follows.refl (p : Party) : Follows p p :=
  ⟨rfl, rfl, rfl, rfl, rfl, fun _ _ o h => ⟨o, h⟩⟩

theorem Follows.trans (h : Follows p q) (h' : Follows q p') : Follows p p' where
  key := h'.key.trans h.key
  parties := h'.parties.trans h.parties
  phase := h'.phase.trans h.phase
  round := h'.round.trans h.round
  messages := h'.messages.trans h.messages
  promises j i o ho := by
    obtain ⟨o', ho'⟩ := h.promises j i o ho
    exact h'.promises j i o' ho'

theorem Follows.N (h : Follows p p') : p'.N = p.N := congrArg List.length h.parties

theorem Follows.signs (h : Follows p p') : p'.signs = p.signs := by
  unfold Party.signs
  rw [h.phase]

theorem Follows.rounds (h : Follows p p') : p'.rounds = p.rounds := by
  unfold Party.rounds
  rw [h.messages]

theorem kept_follows : Kept P Follows where
  refl := Follows.refl
  trans _ _ _ := Follows.trans
  signature p k s := by
    obtain ⟨hkey, hparties⟩ := kept_parties.signature (P := P) p k s
    exact ⟨hkey, hparties, rfl, rfl, rfl, fun _ _ o h => ⟨o, h⟩⟩
  status p _ _ := ⟨rfl, rfl, rfl, rfl, rfl, fun _ _ o h => ⟨o, h⟩⟩
  deaf p := ⟨rfl, rfl, rfl, rfl, rfl, fun _ _ o h => ⟨o, h⟩⟩
  signer p _ := ⟨rfl, rfl, rfl, rfl, rfl, fun _ _ o h => ⟨o, h⟩⟩
  promise p k i o := ⟨rfl, rfl, rfl, rfl, rfl, fun _ _ _ h => setPromise_mono h⟩
  request p round text s :=
    ⟨rfl, rfl, rfl, rfl, kept_messages.request (P := P) p round text s, fun _ _ o h => ⟨o, h⟩⟩

theorem answering_promises : Answering P fun p p' => p'.roundReceived = p.roundReceived where
  refl _ := rfl
  trans _ _ _ h h' := h'.trans h
  signature _ _ _ := rfl
  status _ _ _ := rfl
  deaf _ := rfl
  signer _ _ := rfl
  request _ _ _ _ := rfl

def Untold (p : Party) : Prop :=
  ∀ i k, p.contract.parties[i]? = some k → k.publicKey = p.key.publicKey →
    ∀ j, p.roundReceived j i = none

theorem Untold.congr (hp : p.Untold) (h : Follows p p')
    (hreceived : p'.roundReceived = p.roundReceived) : p'.Untold := by
  intro i k hi hk j
  rw [h.parties] at hi
  rw [h.key] at hk
  rw [hreceived]
  exact hp i k hi hk j

theorem Untold.verifyAndStore (hp : p.Untold) (message : SignMessage) (pubK : ℤ) :
    ((ProtocolSign.verifyAndStoreSignature P message pubK).exec p).2.Untold := by
  have hfollows := kept_follows.verifyAndStore (P := P) message pubK p
  intro i k hi hk j
  rw [hfollows.parties] at hi
  rw [hfollows.key] at hk
  by_contra hne
  obtain ⟨o, ho⟩ := Option.ne_none_iff_exists'.mp hne
  have hdelivers := (stores_iff.mp ⟨hp i k hi hk j, ho⟩).1
  obtain ⟨k', hi', hk'⟩ := exists_of_indexOf hdelivers.sender
  rw [hi, Option.some.injEq] at hi'
  subst hi'
  exact hdelivers.other (hk'.symm.trans hk)

/-- A party that is not one of the contract has no promise to lose. -/
theorem untold_of_stranger (h : ∀ i, p.indexOf p.key.publicKey ≠ .ok i) : p.Untold := by
  intro i k hi hk j
  unfold indexOf at h
  cases hfind : p.contract.parties.findIdx? fun k => k.publicKey == p.key.publicKey with
  | none =>
    have hno := List.findIdx?_eq_none_iff.mp hfind k (List.mem_of_getElem? hi)
    rw [hk, beq_self_eq_true] at hno
    exact absurd hno (by decide)
  | some i' => exact absurd (by rw [hfind]) (h i')

/-- The message of the round is sent by a party of the contract, if anything is signed. -/
theorem sendMessage_follows (d : Draws) (p : Party) : ∃ q, Follows p q ∧
    (((ProtocolSign.sendMessage P d).exec p).2 = q ∨ ∃ content i,
      p.indexOf p.key.publicKey = .ok i ∧
        ((ProtocolSign.sendMessage P d).exec p).2 = q.send (.signing p.round content)) := by
  unfold ProtocolSign.sendMessage
  rw [Act.exec_get_bind]
  split
  · exact ⟨_, kept_follows.answering.resolve_sendMessage d.resolve p, Or.inl rfl⟩
  · have hfollows := kept_follows.payloads (P := P) d p
    rw [Act.exec_bind]
    rcases hexec : (p.contract.parties.zipIdx.mapM (ProtocolSign.payload P d)).exec p with
      ⟨e | content, q⟩
    · rw [hexec] at hfollows
      exact ⟨q, hfollows, Or.inl rfl⟩
    · rw [hexec] at hfollows
      have hindex : q.indexOf q.key.publicKey = p.indexOf p.key.publicKey := by
        rw [indexOf, indexOf, hfollows.parties, hfollows.key]
      refine ⟨q, hfollows, ?_⟩
      dsimp only
      rw [Act.exec_get_bind, hindex]
      rcases p.indexOf p.key.publicKey with e | i
      · exact Or.inl rfl
      · refine Or.inr ⟨content, i, rfl, ?_⟩
        rw [Act.exec_ok_bind, Act.exec_modify, hfollows.round]

/-! ### Rounds in order -/

/-- **The rounds of one party**: those that have been sent go up to its own, each was entered with
the promises of the one before, and before the first message the party has none of itself. -/
structure Ordered (p : Party) : Prop where
  outside : p.signs = false → p.round = 0 ∧ p.rounds = []
  inside : p.signs = true → 1 ≤ p.round
  last : p.round ≤ p.N + 2
  formed : ∀ j : ℤ, 1 ≤ j → j < p.round → ∀ i < p.N, ∃ o, p.roundReceived j i = some o
  sorted : p.rounds.Pairwise (· < ·)
  sent : ∀ r ∈ p.rounds, 1 ≤ r ∧ r ≤ p.round
  first : p.phase = .created → p.rounds = [] ∧ p.Untold

theorem initial_ordered (key trentK : ElGamalKey) (contract : SigmaContract) (chooseRound : ℤ) :
    Ordered (initial key trentK contract chooseRound) where
  outside _ := ⟨rfl, rfl⟩
  inside h := absurd h (by simp [Party.signs, initial])
  last := by
    show (0 : ℤ) ≤ _
    omega
  formed j h1 hj := absurd hj (by simp [initial]; omega)
  sorted := List.Pairwise.nil
  sent r hr := absurd hr (by simp [Party.rounds, messages, initial])
  first h := absurd h (by simp [initial])

theorem Ordered.follows (hp : Ordered p) (h : Follows p p')
    (hfirst : p.phase = .created → p'.Untold) : Ordered p' where
  outside := by rw [h.signs, h.round, h.rounds]; exact hp.outside
  inside := by rw [h.signs, h.round]; exact hp.inside
  last := by rw [h.round, h.N]; exact hp.last
  formed := by
    rw [h.round, h.N]
    intro j h1 hj i hi
    obtain ⟨o, ho⟩ := hp.formed j h1 hj i hi
    exact h.promises j i o ho
  sorted := by rw [h.rounds]; exact hp.sorted
  sent := by rw [h.rounds, h.round]; exact hp.sent
  first := by
    rw [h.phase, h.rounds]
    exact fun hcreated => ⟨(hp.first hcreated).1, hfirst hcreated⟩

theorem Ordered.sendMessage (hp : Ordered p) (hsigns : p.signs = true)
    (hnew : ∀ r ∈ p.rounds, r < p.round)
    (hfirst : p.phase = .created → ∀ i, p.indexOf p.key.publicKey ≠ .ok i) (d : Draws) :
    Ordered ((ProtocolSign.sendMessage P d).exec p).2 := by
  obtain ⟨q, h, hsent⟩ := sendMessage_follows (P := P) d p
  have hq : Ordered q := by
    refine hp.follows h fun hcreated => untold_of_stranger ?_
    rw [indexOf, h.parties, h.key]
    exact hfirst hcreated
  rcases hsent with hsame | ⟨content, i, hi, hsent⟩
  · rw [hsame]
    exact hq
  · rw [hsent]
    have hrounds : (q.send (.signing p.round content)).rounds = p.rounds ++ [p.round] := by
      rw [rounds_send_signing, h.rounds]
    refine ⟨?_, hq.inside, hq.last, hq.formed, ?_, ?_, ?_⟩
    · intro hout
      rw [← h.signs] at hsigns
      exact absurd (hsigns.symm.trans hout) (by decide)
    · rw [hrounds, List.pairwise_append]
      refine ⟨hp.sorted, List.pairwise_singleton _ _, fun r hr r' hr' => ?_⟩
      rw [List.mem_singleton.mp hr']
      exact hnew r hr
    · intro r hr
      rw [hrounds, List.mem_append, List.mem_singleton] at hr
      show 1 ≤ r ∧ r ≤ q.round
      rw [h.round]
      rcases hr with hr | rfl
      · exact hp.sent r hr
      · exact ⟨hp.inside hsigns, le_refl _⟩
    · intro hcreated
      exact absurd hi (hfirst (h.phase.symm.trans hcreated) i)

/-- A new round is entered; a party that has not sent the first message is none of the contract. -/
theorem Ordered.next (hp : Ordered p) (hsigns : p.signs = true) (hr : p.round ≤ p.N + 1)
    (hc : p.claimFormed = true) (d : Draws) :
    Ordered ((ProtocolSign.sendMessage P d).exec { p with round := p.round + 1 }).2 := by
  have hformed := (claimFormed_iff hr).mp hc
  refine Ordered.sendMessage (p := { p with round := p.round + 1 }) ?_ hsigns ?_ ?_ d
  · refine ⟨?_, ?_, ?_, ?_, hp.sorted, ?_, hp.first⟩
    · exact fun hout => absurd (hsigns.symm.trans hout) (by decide)
    · exact fun _ => (hp.inside hsigns).trans (lt_add_one p.round).le
    · show p.round + 1 ≤ p.N + 2
      omega
    · intro j h1 hj i hi
      by_cases hlt : j < p.round
      · exact hp.formed j h1 hlt i hi
      · obtain rfl : j = p.round := le_antisymm (Int.lt_add_one_iff.mp hj) (not_lt.mp hlt)
        exact hformed i hi
    · exact fun r hr => ⟨(hp.sent r hr).1, (hp.sent r hr).2.trans (lt_add_one p.round).le⟩
  · exact fun r hr => Int.lt_add_one_iff.mpr (hp.sent r hr).2
  · intro hcreated i hi
    -- the promise of the party to itself is missing
    obtain ⟨k, hparty, hkey⟩ := exists_of_indexOf hi
    obtain ⟨o, ho⟩ := hformed i (List.getElem?_eq_some_iff.mp hparty).1
    have hnone := (hp.first hcreated).2 i k hparty hkey p.round
    exact absurd (ho.symm.trans hnone) (by simp)

theorem Ordered.goOn (hp : Ordered p) (hsigns : p.signs = true) (d : Draws) :
    Ordered ((ProtocolSign.goOn P d).exec p).2 := by
  unfold ProtocolSign.goOn
  rw [Act.exec_get_bind]
  split
  · rename_i h
    rw [Act.exec_modify_bind]
    have hnext := hp.next (P := P) hsigns h.1 h.2.1 d
    exact Act.after_bind (fun _ _ => hnext) fun _ _ => hnext
  · exact hp

theorem Ordered.hear (hp : Ordered p) (hsigns : p.signs = true) (message : SignMessage)
    (senderId : ℤ) (d : Draws) : Ordered ((ProtocolSign.hear P message senderId d).exec p).2 := by
  unfold ProtocolSign.hear
  have hfollows := kept_follows.verifyAndStore (P := P) message senderId p
  have hstored : Ordered ((ProtocolSign.verifyAndStoreSignature P message senderId).exec p).2 :=
    hp.follows hfollows fun hcreated => (hp.first hcreated).2.verifyAndStore message senderId
  exact Act.after_bind (fun _ _ => hstored) fun _ _ =>
    hstored.goOn (hfollows.signs.trans hsigns) d

theorem Ordered.begin (hp : Ordered p) (hcreated : p.phase = .created) (d : Draws) :
    Ordered ((ProtocolSign.begin P d).exec p).2 := by
  unfold ProtocolSign.begin
  rw [Act.exec_modify_bind]
  have hsigns : p.signs = true := by
    rw [Party.signs, hcreated]
    rfl
  have hnone := (hp.first hcreated).1
  have hrunning : Ordered { p with phase := .running } :=
    ⟨fun hout => absurd hout (by simp [Party.signs]), fun _ => hp.inside hsigns, hp.last, hp.formed,
      hp.sorted, hp.sent, fun h => absurd h (by simp)⟩
  have hsend : Ordered ((ProtocolSign.sendMessage P d).exec { p with phase := .running }).2 := by
    refine hrunning.sendMessage rfl (fun r hr => ?_) (fun h => absurd h (by simp)) d
    exact absurd (hnone ▸ hr) List.not_mem_nil
  exact Act.after_bind (fun _ _ => hsend) fun _ _ => hsend

theorem sendMessage_signs (hsigns : p.signs = true) (d : Draws) :
    ((ProtocolSign.sendMessage P d).exec p).2.signs = true := by
  have hwrites : Evolves P (fun _ _ => True) p ((ProtocolSign.sendMessage P d).exec p).2 :=
    sign_sendMessage_writes hsigns d
  exact hwrites.signs hsigns

theorem goOn_signs (hsigns : p.signs = true) (d : Draws) :
    ((ProtocolSign.goOn P d).exec p).2.signs = true := by
  unfold ProtocolSign.goOn
  rw [Act.exec_get_bind]
  split
  · rw [Act.exec_modify_bind]
    have hsend :
        ((ProtocolSign.sendMessage P d).exec { p with round := p.round + 1 }).2.signs = true :=
      sendMessage_signs (p := { p with round := p.round + 1 }) hsigns d
    exact Act.after_bind (Q := fun q : Party => q.signs = true) (fun _ _ => hsend) fun _ _ => hsend
  · exact hsigns

theorem hear_signs (hsigns : p.signs = true) (message : SignMessage) (senderId : ℤ) (d : Draws) :
    ((ProtocolSign.hear P message senderId d).exec p).2.signs = true := by
  unfold ProtocolSign.hear
  have hstored :
      ((ProtocolSign.verifyAndStoreSignature P message senderId).exec p).2.signs = true :=
    (kept_follows.verifyAndStore message senderId p).signs.trans hsigns
  exact Act.after_bind (Q := fun q : Party => q.signs = true) (fun _ _ => hstored) fun _ _ =>
    goOn_signs hstored d

theorem begin_signs (d : Draws) (p : Party) :
    ((ProtocolSign.begin P d).exec p).2.signs = true := by
  unfold ProtocolSign.begin
  rw [Act.exec_modify_bind]
  have hsend : ((ProtocolSign.sendMessage P d).exec { p with phase := .running }).2.signs = true :=
    sendMessage_signs rfl d
  exact Act.after_bind (Q := fun q : Party => q.signs = true) (fun _ _ => hsend) fun _ _ => hsend

theorem elsewhere_signs (hsigns : p.signs = true) (e : Event) :
    ((machine P).next p e).signs = true := by
  have hwrites : Evolves P (fun _ _ => True) p ((machine P).next p e) :=
    handle_writes (fun _ => hsigns) e fun _ _ _ _ _ _ _ _ _ => trivial
  exact hwrites.signs hsigns

theorem Ordered.elsewhere (hp : Ordered p) {e : Event} (hstart : ∀ d, e ≠ .start d)
    (hreceive : ∀ message senderId d, e ≠ .receive message senderId d) :
    Ordered ((machine P).next p e) := by
  have htakes := takes_next (P := P) p e
  generalize (machine P).next p e = p' at htakes ⊢
  cases htakes with
  | ignored => exact hp
  | listen h =>
    have hout : p.signs = false := by
      rw [Party.signs, h]
      rfl
    exact ⟨fun _ => hp.outside hout, fun h => absurd h (by simp [Party.signs]), hp.last, hp.formed,
      hp.sorted, hp.sent, fun h => absurd h (by simp)⟩
  | create h =>
    have hout : p.signs = false := by
      rw [Party.signs, h]
      rfl
    have hnone := (hp.outside hout).2
    refine ⟨fun h => absurd h (by simp [Party.signs]), fun _ => le_refl _, ?_, ?_, hp.sorted, ?_,
      ?_⟩
    · show (1 : ℤ) ≤ p.N + 2
      omega
    · intro j h1 hj
      exact absurd (lt_of_lt_of_le hj h1) (lt_irrefl _)
    · intro r hr
      exact absurd (hnone ▸ hr) List.not_mem_nil
    · exact fun _ => ⟨hnone, fun _ _ _ _ _ => rfl⟩
  | start d => exact absurd rfl (hstart d)
  | receive message senderId d => exact absurd rfl (hreceive message senderId d)
  | answer a senderId =>
    have h := kept_follows.answering.answered (P := P) a senderId p
    exact hp.follows h fun hcreated =>
      (hp.first hcreated).2.congr h (answering_promises.answered a senderId p)
  | resolve d =>
    have h := kept_follows.answering.resolve_sendMessage (P := P) d p
    exact hp.follows h fun hcreated =>
      (hp.first hcreated).2.congr h (answering_promises.resolve_sendMessage d p)
  | setWish w =>
    exact ⟨hp.outside, hp.inside, hp.last, hp.formed, hp.sorted, hp.sent, hp.first⟩

theorem goOn_false {d : Draws} (h : (ProtocolSign.goOn P d).exec p = (.ok false, q)) :
    ¬ (q.round ≤ q.N + 1 ∧ q.claimFormed ∧ q.contract.status = .signing) := by
  unfold ProtocolSign.goOn at h
  rw [Act.exec_get_bind] at h
  split at h
  · rw [Act.exec_modify_bind, Act.exec_bind_eq_ok] at h
    obtain ⟨_, _, -, h⟩ := h
    exact absurd (Except.ok.inj (Prod.mk.inj h).1) (by decide)
  · rename_i hnot
    obtain rfl := (Prod.mk.inj h).2
    exact hnot

/-- The party waits for a promise of its round, or has sent all its messages. -/
def Awaits (p : Party) : Prop :=
  p.contract.status = .signing →
    p.round = p.N + 2 ∨ ∃ k < p.N, p.roundReceived p.round k = none

theorem Ordered.awaits (hp : Ordered p)
    (h : ¬ (p.round ≤ p.N + 1 ∧ p.claimFormed ∧ p.contract.status = .signing)) : p.Awaits := by
  intro hstatus
  by_cases hr : p.round ≤ p.N + 1
  · refine Or.inr ?_
    by_contra hall
    push Not at hall
    refine h ⟨hr, (claimFormed_iff hr).mpr fun i hi => ?_, hstatus⟩
    exact Option.ne_none_iff_exists'.mp (hall i hi)
  · have hlast := hp.last
    exact Or.inl (by omega)

end Party

/-! ### Turns -/

namespace Calls

variable {P : Platform} {c : Calls} {p : Party}

open Party

theorem proceed_party (c : Calls) (frame : Frame) (x : Act Party Bool) :
    (c.proceed frame x).2.party = (x.exec c.party).2 := by
  unfold proceed
  rcases x.exec c.party with ⟨e | _ | _, p⟩ <;> rfl

theorem proceed_returns {frame : Frame} {x : Act Party Bool} (h : (c.proceed frame x).1 = true) :
    ∃ p, x.exec c.party = (.ok false, p) ∧ (c.proceed frame x).2.party = p := by
  unfold proceed at h ⊢
  rcases hexec : x.exec c.party with ⟨e | _ | _, p⟩
  · rw [hexec] at h
    exact absurd h (by simp)
  · exact ⟨p, rfl, rfl⟩
  · rw [hexec] at h
    exact absurd h (by simp)

theorem elsewhere_party (c : Calls) (e : Event) :
    (c.elsewhere P e).2.party = (Party.machine P).next c.party e := by
  show _ = ((Party.handle P e).exec c.party).2
  unfold elsewhere
  rcases (Party.handle P e).exec c.party with ⟨e' | _, p⟩ <;> rfl

structure Sound (c : Calls) : Prop where
  ordered : c.party.Ordered
  signs : c.frames ≠ [] → c.party.signs = true

theorem Sound.proceed {c : Calls} {frame : Frame} {x : Act Party Bool}
    (hordered : (x.exec c.party).2.Ordered) (hsigns : (x.exec c.party).2.signs = true) :
    Sound (c.proceed frame x).2 := by
  rw [← proceed_party c frame x] at hordered hsigns
  exact ⟨hordered, fun _ => hsigns⟩

theorem Sound.elsewhere (h : Sound c) {e : Event} (hstart : ∀ d, e ≠ .start d)
    (hreceive : ∀ message senderId d, e ≠ .receive message senderId d) :
    Sound (c.elsewhere P e).2 := by
  refine ⟨?_, fun hframes => ?_⟩
  · rw [elsewhere_party]
    exact h.ordered.elsewhere hstart hreceive
  · rw [elsewhere_party]
    refine elsewhere_signs (h.signs fun hnone => hframes ?_) e
    unfold Calls.elsewhere
    rcases (Party.handle P e).exec c.party with ⟨e' | _, p⟩
    · rfl
    · exact hnone

/-- **Every turn keeps the rounds in order.** -/
theorem Sound.next (h : Sound c) (t : Turn) : Sound ((machine P).next c t) := by
  show Sound (step P c t).2
  cases t with
  | event e =>
    cases e with
    | start d =>
      rw [step]
      split
      · rename_i hcreated
        exact .proceed (h.ordered.begin hcreated d) (begin_signs d _)
      · exact h
    | receive message senderId d =>
      rw [step]
      split
      · rename_i hsigns
        exact .proceed (h.ordered.hear hsigns message senderId d)
          (hear_signs hsigns message senderId d)
      · exact h
    | _ => exact h.elsewhere (by simp) (by simp)
  | returns d =>
    rw [step]
    obtain ⟨p, frames⟩ := c
    cases frames with
    | nil => exact h
    | cons frame rest =>
      have hsigns : p.signs = true := h.signs (List.cons_ne_nil frame rest)
      cases frame with
      | first => exact ⟨h.ordered, fun _ => hsigns⟩
      | listener => exact .proceed (h.ordered.goOn hsigns d) (goOn_signs hsigns d)
  | throws => exact ⟨h.ordered, fun hframes => absurd rfl hframes⟩

theorem run_sound (key trentK : ElGamalKey) (contract : SigmaContract) (chooseRound : ℤ)
    (turns : List Turn) : Sound ((machine P).run (initial key trentK contract chooseRound) turns) :=
  (machine P).invariant
    ⟨initial_ordered key trentK contract chooseRound, fun hframes => absurd rfl hframes⟩
    (fun _ t h => h.next t) turns

/-- A call of the listener returns where the condition of its loop fails. -/
theorem returns_left {t : Turn} (h : (machine P).out c t = true) :
    ¬ (((machine P).next c t).party.round ≤ ((machine P).next c t).party.N + 1 ∧
      ((machine P).next c t).party.claimFormed ∧
        ((machine P).next c t).party.contract.status = .signing) := by
  change (step P c t).1 = true at h
  show ¬ ((step P c t).2.party.round ≤ (step P c t).2.party.N + 1 ∧
    (step P c t).2.party.claimFormed ∧ (step P c t).2.party.contract.status = .signing)
  have helsewhere : ∀ e, (c.elsewhere P e).1 ≠ true := by
    intro e
    unfold Calls.elsewhere
    rcases (Party.handle P e).exec c.party with ⟨e' | _, p⟩ <;> simp
  cases t with
  | event e =>
    cases e with
    | start d =>
      rw [step] at h
      split at h
      · -- the first message is followed by no loop
        obtain ⟨p, hexec, -⟩ := proceed_returns h
        unfold ProtocolSign.begin at hexec
        rw [Act.exec_modify_bind, Act.exec_bind_eq_ok] at hexec
        obtain ⟨_, _, -, hexec⟩ := hexec
        exact absurd (Except.ok.inj (Prod.mk.inj hexec).1) (by decide)
      · exact absurd h (by simp)
    | receive message senderId d =>
      rw [step] at h ⊢
      split at h
      · rename_i hsigns
        rw [if_pos hsigns]
        obtain ⟨p, hexec, hparty⟩ := proceed_returns h
        rw [hparty]
        unfold ProtocolSign.hear at hexec
        obtain ⟨_, _, -, hexec⟩ := Act.exec_bind_eq_ok.mp hexec
        exact goOn_false hexec
      · exact absurd h (by simp)
    | _ => exact absurd h (helsewhere _)
  | returns d =>
    obtain ⟨p, frames⟩ := c
    rw [step] at h ⊢
    cases frames with
    | nil => exact absurd h (by simp)
    | cons frame rest =>
      cases frame with
      | first => exact absurd h (by simp)
      | listener =>
        obtain ⟨q, hexec, hparty⟩ := proceed_returns h
        dsimp only
        rw [hparty]
        exact goOn_false hexec
  | throws => exact absurd h (by simp [step])

/-! ### Sending that nobody hears -/

theorem run_idle (p : Party) (d : Draws) (n : ℕ) :
    (machine P).run ⟨p, []⟩ (List.replicate n (.returns d)) = ⟨p, []⟩ := by
  induction n with
  | zero => rfl
  | succ n ih => exact ih

theorem run_returns (d : Draws) : ∀ (left : ℕ) (p : Party), (p.N + 2 - p.round).toNat ≤ left →
    (machine P).run (proceed ⟨p, []⟩ .listener (ProtocolSign.goOn P d)).2
      (List.replicate left (.returns d)) = ⟨((ProtocolSign.sendRounds P d left).exec p).2, []⟩ := by
  intro left
  induction left with
  | zero =>
    intro p hleft
    have hlast : ¬ (p.round ≤ p.N + 1 ∧ p.claimFormed ∧ p.contract.status = .signing) := by
      omega
    unfold proceed ProtocolSign.goOn
    rw [Act.exec_get_bind, if_neg hlast]
    rfl
  | succ left ih =>
    intro p hleft
    rw [ProtocolSign.sendRounds, Act.exec_get_bind]
    by_cases hgo : p.round ≤ p.N + 1 ∧ p.claimFormed ∧ p.contract.status = .signing
    · have hexec : (ProtocolSign.goOn P d).exec p =
          (do ProtocolSign.sendMessage P d; return true : Act Party Bool).exec
            { p with round := p.round + 1 } := by
        unfold ProtocolSign.goOn
        rw [Act.exec_get_bind, if_pos hgo, Act.exec_modify_bind]
      obtain ⟨q, hfollows, hsent⟩ :=
        sendMessage_follows (P := P) d { p with round := p.round + 1 }
      have hsame : ((ProtocolSign.sendMessage P d).exec { p with round := p.round + 1 }).2.N = p.N ∧
          ((ProtocolSign.sendMessage P d).exec { p with round := p.round + 1 }).2.round
            = p.round + 1 := by
        rcases hsent with hsent | ⟨content, i, -, hsent⟩
        · rw [hsent]
          exact ⟨hfollows.N, hfollows.round⟩
        · rw [hsent]
          exact ⟨hfollows.N, hfollows.round⟩
      rw [if_pos hgo, Act.exec_modify_bind, Act.exec_bind]
      unfold proceed
      rw [hexec, Act.exec_bind]
      rcases hmessage : (ProtocolSign.sendMessage P d).exec { p with round := p.round + 1 } with
        ⟨e | _, p'⟩
      · exact run_idle p' d (left + 1)
      · rw [hmessage] at hsame
        obtain ⟨hN, hround⟩ := hsame
        exact ih p' (by rw [hN, hround]; omega)
    · rw [if_neg hgo]
      have hexec : (ProtocolSign.goOn P d).exec p = (.ok false, p) := by
        unfold ProtocolSign.goOn
        rw [Act.exec_get_bind, if_neg hgo]
        rfl
      unfold proceed
      rw [hexec]
      exact run_idle p d (left + 1)

/-- **Where nothing is heard while something is sent**, the turns of a call are `received`. -/
theorem run_received (hsigns : p.signs = true) (message : SignMessage) (senderId : ℤ) (d : Draws) :
    (machine P).run ⟨p, []⟩ (.event (.receive message senderId d) ::
        List.replicate (p.N + 2 - p.round).toNat (.returns d))
      = ⟨((ProtocolSign.received P message senderId d).exec p).2, []⟩ := by
  have hfollows := kept_follows.verifyAndStore (P := P) message senderId p
  have hnext : (machine P).next ⟨p, []⟩ (.event (.receive message senderId d))
      = (proceed ⟨p, []⟩ .listener (ProtocolSign.hear P message senderId d)).2 := by
    show (step P ⟨p, []⟩ (.event (.receive message senderId d))).2 = _
    rw [step, if_pos hsigns]
  rw [Machine.run_cons, hnext]
  unfold proceed ProtocolSign.hear ProtocolSign.received
  rw [Act.exec_bind, Act.exec_bind]
  rcases hstored : (ProtocolSign.verifyAndStoreSignature P message senderId).exec p with ⟨e | _, q⟩
  · exact run_idle q d _
  · rw [hstored] at hfollows
    dsimp only
    rw [Act.exec_get_bind, hfollows.N, hfollows.round]
    exact run_returns d _ q (by rw [hfollows.N, hfollows.round])

/-- **Whatever comes while a round is sent**: a call of the listener that returns has left the
party in the last round or in one of which a promise is missing; the rounds are sent in order and
none twice, and a round is entered only with the promises of the one before. -/
theorem advances_as_allowed (P : Platform) (key trentK : ElGamalKey) (contract : SigmaContract)
    (chooseRound : ℤ) (turns : List Turn) :
    (machine P).Along
      (fun _ c t => (machine P).out c t = true → ((machine P).next c t).party.Awaits)
      (initial key trentK contract chooseRound) turns ∧
    ∀ p, p = ((machine P).run (initial key trentK contract chooseRound) turns).party →
      p.rounds.Pairwise (· < ·) ∧ (∀ r ∈ p.rounds, 1 ≤ r ∧ r ≤ p.N + 2) ∧
      ∀ j : ℤ, 1 ≤ j → j < p.round → ∀ k < p.N, ∃ o, p.roundReceived j k = some o := by
  constructor
  · intro pre t post _ hout
    have hsound := (run_sound (P := P) key trentK contract chooseRound pre).next (P := P) t
    exact hsound.ordered.awaits (returns_left hout)
  · rintro p rfl
    have hordered := (run_sound (P := P) key trentK contract chooseRound turns).ordered
    refine ⟨hordered.sorted, fun r hr => ?_, hordered.formed⟩
    obtain ⟨h1, hr⟩ := hordered.sent r hr
    exact ⟨h1, hr.trans hordered.last⟩

end Calls

end SXP.Sigma
