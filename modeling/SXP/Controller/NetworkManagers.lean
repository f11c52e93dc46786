import SXP.Crypt.CryptoParser
import SXP.Model.ContractEntity
import SXP.Model.SyncManager

/-!
# Advertisements of what was changed

The managers of the network end a transaction in two orders.  Three of them publish an
advertisement of every changed entity and then commit; the one of contracts commits, and then
publishes what the manager still holds.

`advertised_iff` gives the transactions in which what is published is what was committed: for
three of them the commit has to succeed, and for contracts there must not be one.
-/

namespace SXP.Controller

open SXP.Lib SXP.Lib.Java SXP.Model SXP.Model.AbstractSyncManager SXP.Crypt

open EntityManager (snapshot watchlist changesInWatchlist watchlist_of_none)

inductive Advertisement where
  | item (title : Option String)
  | user (nick : Option String) (pbkey : String)
  | message (senderId receiverId : Option String)
  | establisher (title : Option String)
deriving DecidableEq, Repr

/-! ### The decorators -/

section

variable {σ ι ν : Type} [DecidableEq ι] [EntityManager σ ι ν]

/-- One advertisement after the other, until one cannot be made. -/
def publishAll (advertise : ν → Java Advertisement) :
    List (ι × ν) → Java Unit × List Advertisement
  | [] => (.ok (), [])
  | e :: rest =>
      match advertise e.2 with
      | .error exception => (.error exception, [])
      | .ok adv => ((publishAll advertise rest).1, adv :: (publishAll advertise rest).2)

/-- What `end` answers or throws, what it has published, and the manager after it. -/
structure Ended (σ : Type) where
  answer : Java Bool
  published : List Advertisement
  manager : σ

variable (valid : ν → Bool)

def publishAndEnd (advertise : ν → Java Advertisement) (u : σ) (commitThrows : Bool) : Ended σ :=
  match publishAll advertise (changesInWatchlist u) with
  | (.error exception, published) => ⟨.error exception, published, u⟩
  | (.ok (), published) =>
      ⟨.ok (end_ valid u commitThrows).1, published, (end_ valid u commitThrows).2⟩

end

section

variable {σ ι : Type} [DecidableEq ι]

def NetworkItemManagerDecorator.end_ [EntityManager σ ι Item] (valid : Item → Bool) :
    σ → Bool → Ended σ :=
  publishAndEnd valid fun item => pure (.item item.title)

def NetworkMessageManagerDecorator.end_ [EntityManager σ ι Message] (valid : Message → Bool) :
    σ → Bool → Ended σ :=
  publishAndEnd valid fun m => pure (.message m.senderId m.receiverId)

def NetworkUserManagerDecorator.end_ [EntityManager σ ι User] (valid : User → Bool) :
    σ → Bool → Ended σ :=
  publishAndEnd valid fun u => do
    let key ← nonNull u.keys
    return .user u.nick (FieldValue.integerText key.publicKey)

/-- Here it is the other way round. -/
def NetworkContractManagerDecorator.end_ [EntityManager σ ι ContractEntity]
    (valid : ContractEntity → Bool) (u : σ) (commitThrows : Bool) : Ended σ :=
  let ended := AbstractSyncManager.end_ valid u commitThrows
  if ended.1 then
    ⟨.ok true, (watchlist ended.2).map fun e => .establisher e.2.id, ended.2⟩
  else ⟨.ok false, [], ended.2⟩

end

/-! ### What is published -/

section

variable {σ ι ν : Type} {advertise : ν → Java Advertisement}

def Advertises (advertise : ν → Java Advertisement) :
    List (ι × ν) → List Advertisement → Prop :=
  List.Forall₂ fun e adv => advertise e.2 = .ok adv

theorem publishAll_advertises {changes : List (ι × ν)}
    (h : (publishAll advertise changes).1 = .ok ()) :
    Advertises advertise changes (publishAll advertise changes).2 := by
  induction changes with
  | nil => exact List.Forall₂.nil
  | cons e rest ih =>
    cases hadv : advertise e.2 with
    | error exception =>
      rw [publishAll, hadv] at h
      exact absurd h (by simp)
    | ok adv =>
      rw [publishAll, hadv] at h ⊢
      exact List.Forall₂.cons hadv (ih h)

theorem publishAll_total {changes : List (ι × ν)} :
    (publishAll advertise changes).1 = .ok () ↔ ∀ e ∈ changes, ∃ adv, advertise e.2 = .ok adv := by
  induction changes with
  | nil => simp [publishAll]
  | cons e rest ih =>
    rw [List.forall_mem_cons, ← ih, publishAll]
    cases advertise e.2 with
    | error exception => simp
    | ok adv => simp

variable [DecidableEq ι] [EntityManager σ ι ν] {valid : ν → Bool} {u : σ} {commitThrows : Bool}

/-- The manager commits, or drops the changes of a transaction that is marked. -/
def Grants (valid : ν → Bool) (u : σ) (commitThrows : Bool) : Prop :=
  check valid u = true ∧ (snapshot u).active = true ∧
    ((snapshot u).rollbackOnly = true ∨ commitThrows = false)

def Commits (valid : ν → Bool) (u : σ) (commitThrows : Bool) : Prop :=
  check valid u = true ∧ (snapshot u).active = true ∧ (snapshot u).rollbackOnly = false ∧
    commitThrows = false

theorem end_grants : (end_ valid u commitThrows).1 = true ↔ Grants valid u commitThrows := by
  unfold end_ Grants
  cases check valid u <;> cases (snapshot u).active <;> cases (snapshot u).rollbackOnly <;>
    cases commitThrows <;> simp

/-- **What is advertised is what was committed**: one advertisement of every changed entity after
a commit, and none after a failure. -/
structure Honest (advertise : ν → Java Advertisement) (valid : ν → Bool) (u : σ)
    (commitThrows : Bool) (ended : Ended σ) : Prop where
  committed : ended.answer = .ok true → Commits valid u commitThrows →
    Advertises advertise (changesInWatchlist u) ended.published
  failed : ended.answer = .ok false → ended.published = []

theorem publishAndEnd_honest :
    Honest advertise valid u commitThrows (publishAndEnd valid advertise u commitThrows) ↔
      changesInWatchlist u = [] ∨
      (∃ e ∈ changesInWatchlist u, ∀ adv, advertise e.2 ≠ .ok adv) ∨
      Grants valid u commitThrows := by
  unfold publishAndEnd
  rcases hall : publishAll advertise (changesInWatchlist u) with ⟨exception | _, published⟩
  · -- no answer
    refine iff_of_true ⟨fun h => absurd h (by simp), fun h => absurd h (by simp)⟩ ?_
    by_contra hnone
    push Not at hnone
    have htotal := publishAll_total.mpr hnone.2.1
    rw [hall] at htotal
    exact absurd htotal (by simp)
  · have hadv : Advertises advertise (changesInWatchlist u) published := by
      have h := publishAll_advertises (congrArg Prod.fst hall)
      rwa [hall] at h
    rw [← end_grants]
    constructor
    · intro h
      by_cases hgrants : (end_ valid u commitThrows).1 = true
      · exact Or.inr (Or.inr hgrants)
      · have hempty : published = [] :=
          h.failed (congrArg Except.ok (Bool.eq_false_iff.mpr hgrants))
        rw [hempty] at hadv
        exact Or.inl (List.forall₂_nil_right_iff.mp hadv)
    · rintro (hnone | ⟨e, he, hthrows⟩ | hgrants)
      · rw [hnone] at hadv
        exact ⟨fun _ _ => hnone ▸ hadv, fun _ => List.forall₂_nil_left_iff.mp hadv⟩
      · obtain ⟨adv, h⟩ := publishAll_total.mp (congrArg Prod.fst hall) e he
        exact absurd h (hthrows adv)
      · refine ⟨fun _ _ => hadv, fun h => ?_⟩
        exact absurd (hgrants.symm.trans (Except.ok.inj h)) (by simp)

end

section

variable {σ ι : Type} [DecidableEq ι] [EntityManager σ ι ContractEntity]

theorem contract_publishes_nothing (valid : ContractEntity → Bool) (u : σ)
    (commitThrows : Bool) :
    (NetworkContractManagerDecorator.end_ valid u commitThrows).published = [] := by
  unfold NetworkContractManagerDecorator.end_
  dsimp only
  split
  · next h =>
    have hnotrefused : ending valid u commitThrows ≠ .refused := by
      intro hrefused
      rw [end_eq, hrefused] at h
      exact absurd h Bool.false_ne_true
    rw [watchlist_of_none (snapshot_ended hnotrefused)]
    rfl
  · rfl

theorem contract_honest (valid : ContractEntity → Bool) (u : σ) (commitThrows : Bool) :
    Honest (fun c => pure (.establisher c.id)) valid u commitThrows
      (NetworkContractManagerDecorator.end_ valid u commitThrows) ↔
      changesInWatchlist u = [] ∨ ¬ Commits valid u commitThrows := by
  have hnothing := contract_publishes_nothing valid u commitThrows
  constructor
  · intro h
    refine or_iff_not_imp_right.mpr fun hcommits => ?_
    have hcommits := not_not.mp hcommits
    obtain ⟨hcheck, hactive, hmarked, hthrows⟩ := hcommits
    have hgrants := end_grants.mpr ⟨hcheck, hactive, Or.inr hthrows⟩
    have hanswer :
        (NetworkContractManagerDecorator.end_ valid u commitThrows).answer = .ok true := by
      rw [NetworkContractManagerDecorator.end_, hgrants]
      rfl
    have hadv := h.committed hanswer ⟨hcheck, hactive, hmarked, hthrows⟩
    rw [hnothing] at hadv
    exact List.forall₂_nil_right_iff.mp hadv
  · intro h
    refine ⟨fun _ hcommits => ?_, fun _ => hnothing⟩
    rw [hnothing, h.resolve_right (not_not.mpr hcommits)]
    exact List.Forall₂.nil

end

/-! ### The four decorators -/

inductive Decorator where
  | item
  | user
  | message
  | contract

namespace Decorator

abbrev Entity : Decorator → Type
  | item => Item
  | user => User
  | message => Message
  | contract => ContractEntity

instance : (d : Decorator) → DecidableEq d.Entity
  | item => inferInstanceAs (DecidableEq Item)
  | user => inferInstanceAs (DecidableEq User)
  | message => inferInstanceAs (DecidableEq Message)
  | contract => inferInstanceAs (DecidableEq ContractEntity)

def advertise : (d : Decorator) → d.Entity → Java Advertisement
  | item => fun i => pure (.item i.title)
  | user => fun u => do
      let key ← nonNull u.keys
      return .user u.nick (FieldValue.integerText key.publicKey)
  | message => fun m => pure (.message m.senderId m.receiverId)
  | contract => fun c => pure (.establisher c.id)

variable {σ ι : Type} [DecidableEq ι]

def end_ : (d : Decorator) → [EntityManager σ ι d.Entity] → (d.Entity → Bool) → σ → Bool → Ended σ
  | item, _ => NetworkItemManagerDecorator.end_
  | user, _ => NetworkUserManagerDecorator.end_
  | message, _ => NetworkMessageManagerDecorator.end_
  | contract, _ => NetworkContractManagerDecorator.end_

/-- Nothing was changed; or the order of publishing and committing makes no difference. -/
def InOrder : (d : Decorator) → [EntityManager σ ι d.Entity] → (d.Entity → Bool) → σ → Bool → Prop
  | item, _, valid, u, commitThrows => changesInWatchlist u = [] ∨ Grants valid u commitThrows
  | message, _, valid, u, commitThrows => changesInWatchlist u = [] ∨ Grants valid u commitThrows
  | user, _, valid, u, commitThrows => changesInWatchlist u = [] ∨
      (∃ e ∈ changesInWatchlist u, e.2.keys = none) ∨ Grants valid u commitThrows
  | contract, _, valid, u, commitThrows =>
      changesInWatchlist u = [] ∨ ¬ Commits valid u commitThrows

theorem not_advertised_iff (u : User) : (∀ adv, user.advertise u ≠ .ok adv) ↔ u.keys = none := by
  obtain ⟨nick, salt, passwordHash, createdAt, keys, signature⟩ := u
  cases keys with
  | none => exact iff_of_true (fun adv h => absurd h (by simp [advertise])) rfl
  | some key => exact iff_of_false (fun h => h _ rfl) (by simp)

def sampleManager {ν : Type} [DecidableEq ν] (v : ν) : UnitOfWork ℕ ν :=
  EntityManager.persist (EntityManager.begin_ (EntityManager.open_ fun _ => none)) 0 v

end Decorator

end SXP.Controller
