import SXP.Controller.Contracts
import SXP.Sigma.Continuing

/-!
# Cancelling while a signing runs

`sign` gives the copy of its manager to an establisher, which keeps it when the manager has let go
of it.  `cancel` has a manager of its own, and so a copy of its own: the wish that it writes goes to
the row, and the establisher asks its copy.

`stopped_iff` says what is left of a cancel that was granted: the establisher is still when nothing
makes it go on, and `own_wish` says that its wish is as it was.
-/

namespace SXP.Controller

open SXP.Lib SXP.Lib.Java SXP.Model SXP.Sigma

/-- An establisher that `sign` has started, the row as it was read, and whether the manager still
holds the copy. -/
structure Signing where
  party : Party
  loaded : ContractEntity
  attached : Bool

/-- A `cancel` that has read the row, and whether it is over. -/
structure Cancelling where
  loaded : ContractEntity
  ended : Bool

/-- What one peer has for a contract: its row, and the requests.  `granted` says that some `cancel`
has returned `true`. -/
structure Peer where
  row : ContractEntity
  signings : List Signing
  cancellings : List Cancelling
  granted : Bool

namespace Peer

/-- What happens in an establisher.  Nobody sets its wish. -/
abbrev Delivery : Type := { e : Event // ∀ w, e ≠ .setWish w }

/-- A request begins and reads the row, and later it ends.  An establisher that begins is the one
that will have chosen Trent. -/
inductive Happening where
  | sign (key trentK : ElGamalKey) (contract : SigmaContract) (chooseRound : ℤ)
  | endSign (n : ℕ) (commitThrows : Bool)
  | cancel
  | endCancel (n : ℕ) (commitThrows : Bool)
  | protocol (n : ℕ) (e : Delivery)

variable (P : Platform) (valid : ContractEntity → Bool)

/-- The establisher writes the wish and the status of the copy. -/
def copy (s : Signing) : ContractEntity :=
  { s.loaded with
    wish := some s.party.contract.wish
    status := some s.party.contract.status }

/-- The columns that have changed since the row was read are written. -/
def commit (loaded copy row : ContractEntity) : ContractEntity :=
  { row with
    wish := if copy.wish = loaded.wish then row.wish else copy.wish
    status := if copy.status = loaded.status then row.status else copy.status }

def end_ (commitThrows : Bool) (loaded copy row : ContractEntity) : ContractEntity :=
  if valid copy && !commitThrows then commit loaded copy row else row

/-- `initialize` and `start`: the wish is set before, and the status is `NOWHERE`. -/
def started (key trentK : ElGamalKey) (contract : SigmaContract) (chooseRound : ℤ) : Party :=
  .initial key trentK { contract with wish := .accept, status := .nowhere } chooseRound

def machine : Machine Peer Happening (Option (Java Bool)) where
  step peer
    | .sign key trentK contract chooseRound =>
        match peer.row.status with
        | none => (some (.error .nullPointer), peer)
        | some .nowhere =>
            (none, { peer with signings := peer.signings ++
              [⟨started key trentK contract chooseRound, peer.row, true⟩] })
        | some _ => (some (.ok false), peer)
    | .endSign n commitThrows =>
        match peer.signings[n]? with
        | some ⟨party, loaded, true⟩ =>
            (some (.ok true), { peer with
              row := end_ valid commitThrows loaded (copy ⟨party, loaded, true⟩) peer.row
              signings := peer.signings.set n ⟨party, loaded, false⟩ })
        | _ => (none, peer)
    | .cancel => (none, { peer with cancellings := peer.cancellings ++ [⟨peer.row, false⟩] })
    | .endCancel n commitThrows =>
        match peer.cancellings[n]? with
        | some ⟨loaded, false⟩ =>
            let (answer, copy) := Contracts.cancelled loaded
            (some (.ok answer), { peer with
              row := end_ valid commitThrows loaded copy peer.row
              cancellings := peer.cancellings.set n ⟨loaded, true⟩
              granted := peer.granted || answer })
        | _ => (none, peer)
    | .protocol n e =>
        (none, { peer with signings := peer.signings.modify n fun s =>
          { s with party := (Party.machine P).next s.party e } })

def start (row : ContractEntity) : Peer := ⟨row, [], [], false⟩

/-! ### The wish of the establisher -/

def OwnWish (peer : Peer) : Prop := ∀ s ∈ peer.signings, s.party.contract.wish = .accept

variable {P valid}

theorem party_wish (p : Party) (e : Delivery) :
    ((Party.machine P).next p e).contract.wish = p.contract.wish := by
  have h := Party.sending_wish (P := P)
  obtain ⟨e, he⟩ := e
  have htakes := Party.takes_next (P := P) p e
  generalize (Party.machine P).next p e = p' at htakes ⊢
  cases htakes with
  | ignored => rfl
  | listen => rfl
  | create => rfl
  | start d => exact h.passing.sendMessage d _
  | receive message senderId d => exact h.passing.received message senderId d p
  | answer a senderId => exact h.answering.answered a senderId p
  | resolve d => exact h.answering.resolve_sendMessage d p
  | setWish w => exact absurd rfl (he w)

theorem OwnWish.next {peer : Peer} (h : peer.OwnWish) (e : Happening) :
    ((machine P valid).next peer e).OwnWish := by
  unfold Machine.next
  cases e with
  | sign key trentK contract chooseRound =>
    dsimp only [machine]
    split
    · exact h
    · intro s hs
      rcases List.mem_append.mp hs with hs | hs
      · exact h s hs
      · rw [List.mem_singleton.mp hs]
        rfl
    · exact h
  | endSign n commitThrows =>
    dsimp only [machine]
    split
    · next party loaded hn =>
      intro s hs
      rcases List.mem_or_eq_of_mem_set hs with hs | rfl
      · exact h s hs
      · exact h ⟨party, loaded, true⟩ (List.mem_of_getElem? hn)
    · exact h
  | cancel => exact h
  | endCancel n commitThrows =>
    dsimp only [machine]
    split
    · exact h
    · exact h
  | protocol n e =>
    intro s hs
    obtain ⟨i, hi⟩ := List.mem_iff_getElem?.mp hs
    simp only [machine, List.getElem?_modify] at hi
    obtain ⟨s', hs', heq⟩ := Option.map_eq_some_iff.mp hi
    have hwish := h s' (List.mem_of_getElem? hs')
    split at heq
    · rw [← heq]
      exact (party_wish s'.party e).trans hwish
    · rwa [← heq]

/-- **A cancel does not reach the establisher.** -/
theorem own_wish (row : ContractEntity) (es : List Happening) :
    ((machine P valid).run (start row) es).OwnWish :=
  (machine P valid).invariant (fun _ hs => absurd hs List.not_mem_nil) (fun _ e h => h.next e) es

/-! ### What the establisher does after a cancel -/

variable (P)

/-- After a cancel that was granted no establisher sends a promise or a signature, or finalizes the
contract by itself. -/
def Stopped (peer : Peer) : Happening → Prop
  | .protocol n e => peer.granted = true → ∀ s, peer.signings[n]? = some s → s.party.Stays P e
  | _ => True

/-- After a cancel that was granted nothing happens that an establisher goes on at. -/
def Idle (peer : Peer) : Happening → Prop
  | .protocol n e =>
      peer.granted = true → ∀ s, peer.signings[n]? = some s → ¬ s.party.Proceeds P e
  | _ => True

/-- **When a cancel stops the signing.** -/
theorem stopped_iff (valid : ContractEntity → Bool) (row : ContractEntity) (es : List Happening) :
    (machine P valid).Along (fun _ => Stopped P) (start row) es ↔
      (machine P valid).Along (fun _ => Idle P) (start row) es := by
  refine forall₄_congr fun pre e post _ => ?_
  cases e with
  | protocol n e => exact forall₃_congr fun _ s _ => Party.stays_iff s.party e.1
  | sign key trentK contract chooseRound => exact Iff.rfl
  | endSign n commitThrows => exact Iff.rfl
  | cancel => exact Iff.rfl
  | endCancel n commitThrows => exact Iff.rfl

/-! ### A cancel in the middle -/

/-- The second of two parties signs, and it cancels when its signing step has been created. -/
def sampleBefore : List Happening :=
  [.sign (sampleKey 1001) (sampleKey 1002).getPublicKeys SigmaContract.sampleContract 2,
    .protocol 0 ⟨.listen, by simp⟩, .protocol 0 ⟨.create, by simp⟩, .cancel, .endCancel 0 false]

theorem run_sampleBefore (valid : ContractEntity → Bool) :
    let peer := (machine samplePlatform valid).run (start sampleContract) sampleBefore
    peer.granted = true ∧ peer.signings = [⟨Party.created (sampleKey 1001)
      (sampleKey 1002).getPublicKeys SigmaContract.sampleContract 2, sampleContract, true⟩] :=
  ⟨rfl, rfl⟩

/-- The cancel is granted, and then the clear signature of the other party finalizes the
contract. -/
theorem finalized_after_cancel : ∃ s he,
    SigmaSigner.sign sha256
      ⟨some (sampleKey 1002).getPublicKeys, some (sampleKey 1001).getPublicKeys⟩ (sampleKey 1000)
      SigmaContract.sampleContract.getHashableData 7 8 ⟨1, 2, 3, 4, 5, 6⟩ = .ok s ∧
    ¬ (machine samplePlatform fun _ => true).Along (fun _ => Stopped samplePlatform)
      (start sampleContract) (sampleBefore ++ [.protocol 0 ⟨Party.sampleLast s, he⟩]) := by
  obtain ⟨s, hs, hacc⟩ := sign_accepted sha256
    (sampleKey_registered (x := 1000) 1002 (by decide +kernel)) (sampleKey_owned 1000)
    (sampleKey_valid 1001) SigmaContract.sampleContract.getHashableData 7 8 ⟨1, 2, 3, 4, 5, 6⟩
  refine ⟨s, fun w => by simp [Party.sampleLast], hs, fun h => ?_⟩
  obtain ⟨hgranted, hsignings⟩ := run_sampleBefore fun _ => true
  have hstopped := ((machine samplePlatform fun _ => true).along_concat.mp h).2 hgranted _
    (by rw [hsignings]; rfl)
  refine hstopped (Or.inr ⟨show Status.signing ≠ .finalized by decide, ?_⟩)
  have hlast := Party.sampleLast_next hacc
  rw [show [Event.listen, .create, Party.sampleLast s] = [.listen, .create] ++ [Party.sampleLast s]
    from rfl, Machine.run_concat, Party.sampleParty, Party.run_listen_create] at hlast
  rw [hlast]
  rfl

end Peer

end SXP.Controller
