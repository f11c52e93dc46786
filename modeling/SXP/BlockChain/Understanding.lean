import Mathlib.Logic.Function.Basic
import SXP.BlockChain.Establisher

/-!
# Two establishers of one contract

They call their own methods as they like, and what one of them has sent reaches the other one in
any order, any number of times.  Every message has the title of the contract, and the listener
refuses the messages that have it; so nothing is ever done with a message of a party
(`understood_iff`).

Were it done, the address would still be wrong: the text behind the `1` is hexadecimal, and is taken
for the address as it is (`handle_address_iff`).
-/

namespace SXP.BlockChain

open SXP.Lib SXP.Lib.Java SXP.Lib.Text SXP.Lib.Hex

namespace Establisher

variable {P : Platform}

/-! ### The guards of the listener -/

def FromParty (e : Establisher) (m : Message) : Prop :=
  ∃ k ∈ e.contract.parties, k.toString = .ok m.sourceId

/-- The listener goes on to the content. -/
def ActsOn (e : Establisher) (m : Message) : Prop :=
  containsParti m.sourceId e.contract.parties = .ok true ∧ m.title ≠ e.contractId

theorem notify_of_actsOn {e : Establisher} {m : Message} (h : ActsOn e m) :
    Act.exec (notify P m) e = Act.exec (handle P m.sourceId m.contract.toList) e := by
  rw [notify, Act.exec_get_bind, h.1, Act.exec_ok_bind]
  rw [if_neg (by simp), if_neg (by simpa using h.2)]

theorem notify_of_not_actsOn {e : Establisher} {m : Message} (h : ¬ ActsOn e m) :
    ∃ ex, Act.exec (notify P m) e = (.error ex, e) := by
  rw [notify, Act.exec_get_bind]
  rcases hparty : containsParti m.sourceId e.contract.parties with ex | party
  · exact ⟨ex, Act.exec_error_bind _ _ _⟩
  · rw [Act.exec_ok_bind]
    cases party with
    | false => exact ⟨_, Act.exec_lift _ _⟩
    | true =>
      have htitle : m.title = e.contractId := by
        by_contra hne
        exact h ⟨hparty, hne⟩
      rw [if_neg (by simp), if_pos (by simpa using htitle)]
      exact ⟨_, Act.exec_lift _ _⟩

/-- **The address that is stored** is the text that was sent. -/
theorem handle_address {e : Establisher} {own : String} (hkey : e.key.toString = .ok own)
    (hdeployed : e.isDeployed = false) (sourceId text : String) :
    (Act.exec (handle P sourceId ("1" ++ text).toList) e).2.contractAddress = some text := by
  have hlist : ("1" ++ text).toList = '1' :: text.toList := by
    rw [String.toList_append]
    rfl
  have hhandle : Act.exec (handle P sourceId ('1' :: text.toList)) e =
      Act.exec (Act.lift e.key.toString >>= fun _ =>
        if !e.isDeployed then
          modify fun e => { e with contractAddress := some (String.ofList text.toList) }
        else pure ()) e := rfl
  rw [hlist, hhandle, hkey, Act.exec_ok_bind, if_pos (by rw [hdeployed]; rfl), Act.exec_modify]
  exact congrArg some String.ofList_toList

theorem handle_address_iff {e : Establisher} {own : String} (hkey : e.key.toString = .ok own)
    (hdeployed : e.isDeployed = false) (sourceId address : String) :
    (Act.exec (handle P sourceId ("1" ++ bytesToHex (getBytes address)).toList) e).2.contractAddress
        = some address ↔ address = "" := by
  rw [handle_address hkey hdeployed, Option.some_inj, bytesToHex_getBytes_iff]

/-! ### Titles -/

theorem kept_titles : Kept P fun e e' =>
    e'.contractId = e.contractId ∧ ∀ m ∈ e'.sent, m ∈ e.sent ∨ m.title = e.contractId where
  refl e := ⟨rfl, fun m hm => Or.inl hm⟩
  trans e e' e'' := by
    rintro ⟨hid, h⟩ ⟨hid', h'⟩
    refine ⟨hid'.trans hid, fun m hm => ?_⟩
    rcases h' m hm with hm | hm
    · exact h m hm
    · exact Or.inr (hm.trans hid)
  addSignature e k s := ⟨rfl, fun m hm => Or.inl hm⟩
  checkContrat e c := ⟨rfl, fun m hm => Or.inl hm⟩
  sign e terms k answer := ⟨rfl, fun m hm => Or.inl hm⟩
  sends e new h := by
    refine ⟨rfl, fun m hm => ?_⟩
    rcases List.mem_append.mp hm with hm | hm
    · exact Or.inl hm
    · exact Or.inr (h m hm).title
  address e a := ⟨rfl, fun m hm => Or.inl hm⟩
  shared e := ⟨rfl, fun m hm => Or.inl hm⟩

end Establisher

/-! ### The pair -/

inductive Side where
  | left
  | right
deriving DecidableEq

def Side.other : Side → Side
  | left => right
  | right => left

structure Pair where
  key : Side → EthereumKey
  contract : Side → BlockChainContract
  deployment : Side → Option Deployment
  contractSourceHash : Side → String
  parties : (contract .left).parties = (contract .right).parties
  id : (contract .left).id = (contract .right).id

/-- A call at one of the two, or the message number `n` that the other one has sent. -/
inductive PairEvent where
  | call (j : Side) (i : Establisher.Input)
  | deliver (j : Side) (n : ℕ)

namespace Pair

open Establisher (FromParty ActsOn kept_titles)

variable (P : Platform)

def initial (p : Pair) (j : Side) : Establisher :=
  Establisher.initialized (p.key j) (p.contract j) (p.deployment j) (p.contractSourceHash j)

def heard (s : Side → Establisher) (j : Side) (n : ℕ) : Option Message :=
  (s j.other).sent[n]?.filter fun m => (s j).key.toString = .ok m.who

def localInput (s : Side → Establisher) : PairEvent → Option (Side × Establisher.Input)
  | .call j i => some (j, i)
  | .deliver j n => (heard s j n).map fun m => (j, .notify m)

def machine : Machine (Side → Establisher) PairEvent (Java Unit) where
  step s ev :=
    match localInput s ev with
    | none => (.ok (), s)
    | some (j, i) =>
        let (result, e) := (Establisher.machine P).step (s j) i
        (result, Function.update s j e)

/-- What should come of an event: a message is acted on exactly when its sender is a party and
its title is the id of the contract, and the address in a message that is acted on is the one of its
sender. -/
def Understands (s : Side → Establisher) : PairEvent → Prop
  | .call _ _ => True
  | .deliver j n => ∀ m ∈ heard s j n,
      (ActsOn (s j) m ↔ FromParty (s j) m ∧ m.title = (s j).contractId) ∧
      (ActsOn (s j) m → m.contract.toList.head? = some '1' →
        ((machine P).next s (.deliver j n) j).contractAddress = (s j.other).contractAddress)

def PartyHeard (s : Side → Establisher) : PairEvent → Prop
  | .call _ _ => False
  | .deliver j n => ∃ m ∈ heard s j n, FromParty (s j) m

def Titled (id : String) (s : Side → Establisher) : Prop :=
  ∀ j, (s j).contractId = id ∧ ∀ m ∈ (s j).sent, m.title = id

variable {P}

theorem titled_initial (p : Pair) : Titled (p.contract .left).id p.initial := by
  intro j
  cases j with
  | left => exact ⟨rfl, by simp [initial, Establisher.initialized]⟩
  | right => exact ⟨p.id.symm, by simp [initial, Establisher.initialized]⟩

theorem Titled.next {id : String} {s : Side → Establisher} (h : Titled id s) (ev : PairEvent) :
    Titled id ((machine P).next s ev) := by
  simp only [Machine.next, machine]
  split
  · exact h
  · next j i _ =>
    intro j'
    by_cases hj : j' = j
    · subst hj
      obtain ⟨hid, hsent⟩ := (kept_titles (P := P)).act i (s j')
      simp only [Function.update_self]
      refine ⟨hid.trans (h j').1, fun m hm => ?_⟩
      rcases hsent m hm with hm | hm
      · exact (h j').2 m hm
      · exact hm.trans (h j').1
    · simp only [Function.update_of_ne hj]
      exact h j'

theorem Titled.not_actsOn {id : String} {s : Side → Establisher} (h : Titled id s) {j : Side}
    {n : ℕ} {m : Message} (hm : m ∈ heard s j n) :
    m.title = (s j).contractId ∧ ¬ ActsOn (s j) m := by
  have hsent : m ∈ (s j.other).sent :=
    List.mem_of_getElem? (Option.mem_def.mp (Option.mem_filter_iff.mp hm).1)
  have htitle : m.title = (s j).contractId := ((h j.other).2 m hsent).trans (h j).1.symm
  exact ⟨htitle, fun hacts => hacts.2 htitle⟩

/-- One event is understood when it is not a message of a party. -/
theorem Titled.understands_iff {id : String} {s : Side → Establisher} (h : Titled id s)
    (ev : PairEvent) : Understands P s ev ↔ ¬ PartyHeard s ev := by
  cases ev with
  | call j i => exact iff_of_true trivial not_false
  | deliver j n =>
    unfold Understands PartyHeard
    push Not
    refine forall₂_congr fun m hm => ?_
    obtain ⟨htitle, hacts⟩ := h.not_actsOn hm
    constructor
    · rintro ⟨hiff, -⟩ hparty
      exact hacts (hiff.mpr ⟨hparty, htitle⟩)
    · intro hparty
      exact ⟨iff_of_false hacts fun hfrom => hparty hfrom.1, fun h => absurd h hacts⟩

/-- **When two establishers understand each other**: as long as no message of a party is heard. -/
theorem understood_iff (p : Pair) (events : List PairEvent) :
    (machine P).Along (fun _ => Understands P) p.initial events ↔
      (machine P).Along (fun _ s ev => ¬ PartyHeard s ev) p.initial events := by
  have htitled : ∀ pre, Titled (p.contract .left).id ((machine P).run p.initial pre) :=
    (machine P).invariant p.titled_initial fun s ev h => h.next ev
  exact forall₄_congr fun pre ev _ _ => (htitled pre).understands_iff ev

/-! ### A message of the deployer -/

/-- The first party has deployed the contract, at the address `0xd0`. -/
def sample : Pair where
  key
    | .left => Establisher.sampleKey 0 10 171 "ab"
    | .right => Establisher.sampleKey 1 12 205 "cd"
  contract _ := Establisher.sampleContract
  deployment
    | .left => some ⟨some "0xd0", "0xe0", Establisher.sampleTerms⟩
    | .right => none
  contractSourceHash _ := "source"
  parties := rfl
  id := rfl

def sampleEvents : List PairEvent := [.call .left .start, .deliver .right 0]

theorem not_understood : ¬ (machine Establisher.samplePlatform).Along
    (fun _ => Understands Establisher.samplePlatform) sample.initial sampleEvents := by
  intro h
  have hevent := h [.call .left .start] (.deliver .right 0) [] rfl
  have htitled :=
    (titled_initial sample).next (P := Establisher.samplePlatform) (.call .left .start)
  refine (htitled.understands_iff _).mp hevent
    ⟨⟨"4B", "Private key : \n0xc\n\nPrivate public : \n0xcd",
      "Private key : \n0xa\n\nPrivate public : \n0xab", "130786430"⟩, by decide +kernel, ?_⟩
  exact ⟨Establisher.sampleKey 0 10 171 "ab", List.mem_cons_self, by decide +kernel⟩

end Pair

end SXP.BlockChain
