import SXP.Lib.Machine
import SXP.Sigma.Candidates
import Mathlib.Data.Fintype.Basic
import Mathlib.Data.Fin.VecNotation

/-!
# The choice of Trent

A party goes through three rounds: it sends its list of users and takes out of
it what the others do not know, it sends a random number and adds up those of
the others, and it announces the user that the sum picks.  Three arrays note who
has sent what; they have an entry more than there are parties, and the first
`null` being this last one is how a round is found to be complete.

When an announced key is not the own one, the party starts again, with arrays
that lack the last entry.

A message may be delivered to its own sender, and another one to anybody, before
the call that sends it returns.  So a call stops where it sends something and
has something left to do, and `resume` does what is left.
-/

namespace SXP.Sigma

open SXP.Lib SXP.Lib.Java

inductive ChooseMessage where
  | list (users : List User)
  | number (n : ℤ)
  | trent (publicKey : ℤ)
deriving DecidableEq, Repr

/-- What is left to do when a message has been sent. -/
inductive Continuation where
  | list
  | choice (trentUser : User)
deriving DecidableEq, Repr

/-- `hasSent` says for each round whose entry is not null; `stepped` that `nextStep` has
been called. -/
structure ProtocolChooseTrent where
  parties : List ElGamalKey
  senderKeyId : ℕ
  list : List User
  randomNumber : ℤ
  finalNumber : ℤ
  hasSent : Fin 3 → List Bool
  trentKey : Option ElGamalKey
  pending : List Continuation
  sent : List ChooseMessage
  stepped : Bool

/-- The user presses the button, a message is received, or a call goes on.  A key that is
announced replaces the public key of a key that is `created` for it. -/
inductive ChooseEvent where
  | start
  | receive (senderId : ℤ) (message : ChooseMessage) (created : ElGamalKey)
  | resume (k : ℕ)
deriving DecidableEq, Repr

namespace ProtocolChooseTrent

/-- The loop `while (!(parties.get(i).getPublicKey().equals(key))) i++`. -/
def indexOf (parties : List ElGamalKey) (publicKey : ℤ) : Java ℕ :=
  match parties.findIdx? fun k => k.publicKey == publicKey with
  | some i => .ok i
  | none => .error .indexOutOfBounds

def initial (parties : List ElGamalKey) (users : List User) (senderKeyId : ℕ) (randomNumber : ℤ) :
    ProtocolChooseTrent where
  parties := parties
  senderKeyId := senderKeyId
  list := Candidates.setup parties users
  randomNumber := randomNumber
  finalNumber := randomNumber
  hasSent := fun _ => List.replicate (parties.length + 1) false
  trentKey := none
  pending := []
  sent := []
  stepped := false

def create (parties : List ElGamalKey) (users : List User) (key : ElGamalKey) (randomNumber : ℤ) :
    Java ProtocolChooseTrent := do
  let i ← indexOf parties key.publicKey
  return initial parties users i randomNumber

def N (c : ProtocolChooseTrent) : ℕ := c.parties.length

/-- `indexOf(null) != -1`. -/
def awaits (c : ProtocolChooseTrent) (r : Fin 3) : Bool := (c.hasSent r).contains false

/-- `indexOf(null) == N`. -/
def complete (c : ProtocolChooseTrent) (r : Fin 3) : Bool :=
  (c.hasSent r).findIdx? (fun sent => !sent) == some c.N

/-- `hasSent[r][k] = ""`. -/
def mark (r : Fin 3) (k : ℕ) (c : ProtocolChooseTrent) : ProtocolChooseTrent :=
  { c with hasSent := Function.update c.hasSent r ((c.hasSent r).set k true) }

@[simp] theorem mark_parties (r : Fin 3) (k : ℕ) (c : ProtocolChooseTrent) :
    (c.mark r k).parties = c.parties := rfl

@[simp] theorem mark_senderKeyId (r : Fin 3) (k : ℕ) (c : ProtocolChooseTrent) :
    (c.mark r k).senderKeyId = c.senderKeyId := rfl

@[simp] theorem mark_sent (r : Fin 3) (k : ℕ) (c : ProtocolChooseTrent) :
    (c.mark r k).sent = c.sent := rfl

def setList (list : List User) (c : ProtocolChooseTrent) : ProtocolChooseTrent :=
  { c with list := list }

def setTrent (trentK : Option ElGamalKey) (c : ProtocolChooseTrent) : ProtocolChooseTrent :=
  { c with trentKey := trentK }

def send (m : ChooseMessage) (c : ProtocolChooseTrent) : ProtocolChooseTrent :=
  { c with sent := c.sent ++ [m] }

def suspend (rest : Continuation) (c : ProtocolChooseTrent) : ProtocolChooseTrent :=
  { c with pending := c.pending ++ [rest] }

def resume (k : ℕ) (c : ProtocolChooseTrent) : ProtocolChooseTrent :=
  { c with pending := c.pending.eraseIdx k }

/-- The arrays that a restart makes. -/
def reset (c : ProtocolChooseTrent) : ProtocolChooseTrent :=
  { c with hasSent := fun _ => List.replicate c.N false }

def nextStep (c : ProtocolChooseTrent) : ProtocolChooseTrent := { c with stepped := true }

def getRound (c : ProtocolChooseTrent) : ℤ :=
  if c.awaits 0 then 0 else if c.awaits 1 then 1 else 2

def sendMessage : Act ProtocolChooseTrent Unit := do
  modify fun c => c.send (.list c.list)
  modify (suspend .list)

def restart : Act ProtocolChooseTrent Unit := do
  modify reset
  modify (setTrent none)
  sendMessage

def receiveList (j : ℕ) (list2 : List User) : Act ProtocolChooseTrent Unit := do
  if (← get).awaits 0 then
    let (result, list) := Candidates.retain (← get).list list2
    modify (setList list)
    Act.lift result
    modify (mark 0 j)
    if (← get).complete 0 then
      modify fun c => c.mark 0 c.N
      modify fun c => c.setList (Candidates.sort c.list)
      modify fun c => c.mark 1 c.senderKeyId
      modify fun c => c.send (.number c.randomNumber)

/-- A number is added when it is the first of its sender. -/
def addNumber (j : ℕ) (number : ℤ) : Act ProtocolChooseTrent Unit := do
  if ((← get).hasSent 1)[j]? = some false then
    modify fun c => { c with finalNumber := c.finalNumber + number }
    modify (mark 1 j)

/-- When all numbers are there, the sum picks a user, unless no third party is left. -/
def pickTrent : Act ProtocolChooseTrent Unit := do
  if (← get).complete 1 then
    modify fun c => c.mark 1 c.N
    let c ← get
    match c.list[(c.finalNumber % c.list.length).toNat]? with
    | none => pure ()
    | some trentUser =>
        if c.trentKey = none then modify (setTrent (some trentUser.key))
        modify (send (.trent trentUser.key.publicKey))
        modify (suspend (.choice trentUser))

def receiveNumber (j : ℕ) (number : ℤ) : Act ProtocolChooseTrent Unit := do
  if (← get).awaits 1 then
    addNumber j number
    pickTrent

def receiveTrent (j : ℕ) (publicKey : ℤ) (created : ElGamalKey) : Act ProtocolChooseTrent Unit := do
  if (← get).awaits 2 then
    match (← get).trentKey with
    | none =>
        modify (setTrent (some { created with publicKey := publicKey }))
        modify (mark 2 j)
    | some key =>
        if publicKey = key.publicKey then
          modify (mark 2 j)
          if (← get).complete 2 then
            modify fun c => c.mark 2 c.N
            modify nextStep
        else restart

def goOn : Continuation → Act ProtocolChooseTrent Unit
  | .list => modify fun c => c.mark 0 c.senderKeyId
  | .choice trentUser => do
      modify fun c => c.mark 2 c.senderKeyId
      match (← get).trentKey with
      | none => pure ()
      | some key => if key.publicKey ≠ trentUser.key.publicKey then restart

/-- The establisher sends the first message of the step it is in. -/
def handle : ChooseEvent → Act ProtocolChooseTrent Unit
  | .start => do
      if !(← get).stepped then sendMessage
  | .receive senderId message created => do
      let j ← Act.lift (indexOf (← get).parties senderId)
      match message with
      | .list list2 => receiveList j list2
      | .number number => receiveNumber j number
      | .trent publicKey => receiveTrent j publicKey created
  | .resume k => do
      match (← get).pending[k]? with
      | none => pure ()
      | some rest =>
          modify (resume k)
          goOn rest

def machine : Machine ProtocolChooseTrent ChooseEvent (Java Unit) where
  step c e := (handle e).exec c

/-! ### What a step does -/

def ask (c : ProtocolChooseTrent) : ProtocolChooseTrent := (c.send (.list c.list)).suspend .list

def again (c : ProtocolChooseTrent) : ProtocolChooseTrent := (c.reset.setTrent none).ask

@[simp] theorem again_parties (c : ProtocolChooseTrent) : c.again.parties = c.parties := rfl

@[simp] theorem again_senderKeyId (c : ProtocolChooseTrent) :
    c.again.senderKeyId = c.senderKeyId := rfl

@[simp] theorem again_stepped (c : ProtocolChooseTrent) : c.again.stepped = c.stepped := rfl

@[simp] theorem again_sent (c : ProtocolChooseTrent) :
    c.again.sent = c.sent ++ [.list c.list] := rfl

def announce (c : ProtocolChooseTrent) : ProtocolChooseTrent :=
  (((c.mark 0 c.N).setList (Candidates.sort c.list)).mark 1 c.senderKeyId).send
    (.number c.randomNumber)

def count (j : ℕ) (number : ℤ) (c : ProtocolChooseTrent) : ProtocolChooseTrent :=
  if (c.hasSent 1)[j]? = some false then
    { c with finalNumber := c.finalNumber + number }.mark 1 j
  else c

def choose (trentUser : User) (c : ProtocolChooseTrent) : ProtocolChooseTrent :=
  ((c.setTrent (some (c.trentKey.getD trentUser.key))).send
    (.trent trentUser.key.publicKey)).suspend (.choice trentUser)

@[simp] theorem choose_parties (u : User) (c : ProtocolChooseTrent) :
    (c.choose u).parties = c.parties := rfl

@[simp] theorem choose_senderKeyId (u : User) (c : ProtocolChooseTrent) :
    (c.choose u).senderKeyId = c.senderKeyId := rfl

@[simp] theorem choose_sent (u : User) (c : ProtocolChooseTrent) :
    (c.choose u).sent = c.sent ++ [.trent u.key.publicKey] := rfl

theorem exec_restart (c : ProtocolChooseTrent) : restart.exec c = (.ok (), c.again) := rfl

/-- A list that is received: what the loop leaves stays, and the party is noted if the loop
does not throw. -/
theorem exec_receiveList (c : ProtocolChooseTrent) (j : ℕ) (list2 : List User) :
    (receiveList j list2).exec c =
      if c.awaits 0 then
        match Candidates.retain c.list list2 with
        | (.error e, list) => (.error e, c.setList list)
        | (.ok _, list) => (.ok (),
            if ((c.setList list).mark 0 j).complete 0 then ((c.setList list).mark 0 j).announce
            else (c.setList list).mark 0 j)
      else (.ok (), c) := by
  rw [receiveList, Act.exec_get_bind]
  cases c.awaits 0 with
  | false => rfl
  | true =>
    rw [if_pos rfl, if_pos rfl, Act.exec_get_bind]
    rcases Candidates.retain c.list list2 with ⟨e | u, list⟩
    · dsimp only
      rw [Act.exec_modify_bind, Act.exec_error_bind]
    · dsimp only
      rw [Act.exec_modify_bind, Act.exec_ok_bind, Act.exec_modify_bind, Act.exec_get_bind]
      cases ((c.setList list).mark 0 j).complete 0 <;> rfl

theorem exec_addNumber (c : ProtocolChooseTrent) (j : ℕ) (number : ℤ) :
    (addNumber j number).exec c = (.ok (), c.count j number) := by
  rw [addNumber, Act.exec_get_bind, count]
  by_cases h : (c.hasSent 1)[j]? = some false
  · rw [if_pos h, if_pos h]
    rfl
  · rw [if_neg h, if_neg h]
    rfl

theorem exec_pickTrent (c : ProtocolChooseTrent) :
    pickTrent.exec c = (.ok (),
      if c.complete 1 then
        match c.list[(c.finalNumber % c.list.length).toNat]? with
        | none => c.mark 1 c.N
        | some trentUser => (c.mark 1 c.N).choose trentUser
      else c) := by
  rw [pickTrent, Act.exec_get_bind]
  cases c.complete 1 with
  | false => rfl
  | true =>
    rw [if_pos rfl, if_pos rfl, Act.exec_modify_bind, Act.exec_get_bind]
    change Act.exec (match c.list[(c.finalNumber % c.list.length).toNat]? with
      | none => _ | some _ => _) _ = _
    cases c.list[(c.finalNumber % c.list.length).toNat]? with
    | none => rfl
    | some trentUser =>
      have hself : c.mark 1 c.N = (c.mark 1 c.N).setTrent c.trentKey := rfl
      dsimp only
      rw [choose, show (c.mark 1 c.N).trentKey = c.trentKey from rfl]
      cases hkey : c.trentKey with
      | none => rfl
      | some key =>
        rw [if_neg (by simp), hself, hkey]
        rfl

theorem exec_receiveNumber (c : ProtocolChooseTrent) (j : ℕ) (number : ℤ) :
    (receiveNumber j number).exec c =
      if c.awaits 1 then pickTrent.exec (c.count j number) else (.ok (), c) := by
  rw [receiveNumber, Act.exec_get_bind]
  cases c.awaits 1 with
  | false => rfl
  | true => rw [if_pos rfl, if_pos rfl, Act.exec_bind_ok (exec_addNumber c j number)]

theorem exec_receiveTrent (c : ProtocolChooseTrent) (j : ℕ) (publicKey : ℤ) (created : ElGamalKey) :
    (receiveTrent j publicKey created).exec c = (.ok (),
      if c.awaits 2 then
        match c.trentKey with
        | none => (c.setTrent (some { created with publicKey := publicKey })).mark 2 j
        | some key =>
            if publicKey = key.publicKey then
              if (c.mark 2 j).complete 2 then ((c.mark 2 j).mark 2 c.N).nextStep
              else c.mark 2 j
            else c.again
      else c) := by
  rw [receiveTrent, Act.exec_get_bind]
  cases c.awaits 2 with
  | false => rfl
  | true =>
    rw [if_pos rfl, if_pos rfl, Act.exec_get_bind]
    cases c.trentKey with
    | none => rfl
    | some key =>
      dsimp only
      by_cases hkey : publicKey = key.publicKey
      · rw [if_pos hkey, if_pos hkey, Act.exec_modify_bind, Act.exec_get_bind]
        cases (c.mark 2 j).complete 2 <;> rfl
      · rw [if_neg hkey, if_neg hkey, exec_restart]

theorem exec_goOn_choice (c : ProtocolChooseTrent) (trentUser : User) :
    (goOn (.choice trentUser)).exec c = (.ok (),
      match c.trentKey with
      | none => c.mark 2 c.senderKeyId
      | some key =>
          if key.publicKey ≠ trentUser.key.publicKey then (c.mark 2 c.senderKeyId).again
          else c.mark 2 c.senderKeyId) := by
  rw [goOn, Act.exec_modify_bind, Act.exec_get_bind,
    show (c.mark 2 c.senderKeyId).trentKey = c.trentKey from rfl]
  cases c.trentKey with
  | none => rfl
  | some key =>
    dsimp only
    by_cases hkey : key.publicKey ≠ trentUser.key.publicKey
    · rw [if_pos hkey, if_pos hkey, exec_restart]
    · rw [if_neg hkey, if_neg hkey]
      rfl

/-! ### The arrays -/

def Sized (k : ℕ) (c : ProtocolChooseTrent) : Prop := ∀ r, (c.hasSent r).length = k

theorem mark_self (r : Fin 3) (k : ℕ) (c : ProtocolChooseTrent) :
    (c.mark r k).hasSent r = (c.hasSent r).set k true := Function.update_self ..

theorem mark_ne {r r' : Fin 3} (h : r' ≠ r) (k : ℕ) (c : ProtocolChooseTrent) :
    (c.mark r k).hasSent r' = c.hasSent r' := Function.update_of_ne h ..

@[simp] theorem sized_mark {n : ℕ} (r : Fin 3) (k : ℕ) (c : ProtocolChooseTrent) :
    (c.mark r k).Sized n ↔ c.Sized n := by
  refine forall_congr' fun r' => ?_
  by_cases h : r' = r
  · rw [h, mark_self, List.length_set]
  · rw [mark_ne h]

@[simp] theorem sized_count {n : ℕ} (j : ℕ) (number : ℤ) (c : ProtocolChooseTrent) :
    (c.count j number).Sized n ↔ c.Sized n := by
  unfold count
  split
  · exact sized_mark 1 j _
  · exact Iff.rfl

theorem sized_reset (c : ProtocolChooseTrent) : c.reset.Sized c.N := fun _ => List.length_replicate

theorem sized_again (c : ProtocolChooseTrent) : c.again.Sized c.again.N := sized_reset c

theorem mark_kept {r r' : Fin 3} {k j : ℕ} {c : ProtocolChooseTrent}
    (h : ((c.mark r k).hasSent r')[j]? = some true) :
    (c.hasSent r')[j]? = some true ∨ (r' = r ∧ j = k) := by
  by_cases hr : r' = r
  · by_cases hj : j = k
    · exact Or.inr ⟨hr, hj⟩
    · rw [hr, mark_self, List.getElem?_set_ne (Ne.symm hj)] at h
      exact Or.inl (hr ▸ h)
  · rw [mark_ne hr] at h
    exact Or.inl h

theorem awaits_eq_false {c : ProtocolChooseTrent} {r : Fin 3} :
    c.awaits r = false ↔ ∀ sent ∈ c.hasSent r, sent = true := by
  rw [awaits, ← Bool.not_eq_true, List.contains_iff_mem]
  constructor
  · intro h sent hsent
    by_contra hfalse
    exact h (Bool.eq_false_of_not_eq_true hfalse ▸ hsent)
  · intro h hmem
    exact absurd (h false hmem) Bool.false_ne_true

theorem noted_of_not_awaits {c : ProtocolChooseTrent} {r : Fin 3} (h : c.awaits r = false) {j : ℕ}
    (hj : j < (c.hasSent r).length) : (c.hasSent r)[j]? = some true := by
  rw [List.getElem?_eq_getElem hj, awaits_eq_false.mp h _ (List.getElem_mem hj)]

theorem awaits_mark {r r' : Fin 3} {k : ℕ} {c : ProtocolChooseTrent}
    (h : c.awaits r' = false) : (c.mark r k).awaits r' = false := by
  rw [awaits_eq_false] at h ⊢
  intro sent hsent
  by_cases hr : r' = r
  · rw [hr, mark_self] at hsent
    rcases List.mem_or_eq_of_mem_set hsent with hmem | heq
    · exact h sent (hr ▸ hmem)
    · exact heq
  · rw [mark_ne hr] at hsent
    exact h sent hsent

theorem complete_iff {c : ProtocolChooseTrent} {r : Fin 3} :
    c.complete r = true ↔ (c.hasSent r)[c.N]? = some false ∧
      ∀ j < c.N, (c.hasSent r)[j]? = some true := by
  rw [complete, beq_iff_eq, List.findIdx?_eq_some_iff_getElem]
  constructor
  · rintro ⟨hN, hlast, hall⟩
    refine ⟨?_, fun j hj => ?_⟩
    · rw [Bool.not_eq_true'] at hlast
      rw [List.getElem?_eq_getElem hN, hlast]
    · rw [List.getElem?_eq_getElem (hj.trans hN)]
      have hsent := hall j hj
      rw [Bool.not_eq_true, Bool.not_eq_false'] at hsent
      rw [hsent]
  · rintro ⟨hlast, hall⟩
    obtain ⟨hN, hlast⟩ := List.getElem?_eq_some_iff.mp hlast
    refine ⟨hN, by rw [hlast]; rfl, fun j hj => ?_⟩
    obtain ⟨hj', hsent⟩ := List.getElem?_eq_some_iff.mp (hall j hj)
    rw [hsent]
    exact Bool.false_ne_true

theorem awaits_of_complete {c : ProtocolChooseTrent} {r : Fin 3} (h : c.complete r = true) :
    c.awaits r = true := by
  by_contra hawaits
  have hall := awaits_eq_false.mp (Bool.eq_false_of_not_eq_true hawaits)
  exact absurd (hall false (List.mem_of_getElem? (complete_iff.mp h).1)) Bool.false_ne_true

/-- When a round is complete and its last entry noted, nothing is awaited any more. -/
theorem not_awaits_of_complete {c : ProtocolChooseTrent} {r : Fin 3} (hsized : c.Sized (c.N + 1))
    (h : c.complete r = true) : (c.mark r c.N).awaits r = false := by
  obtain ⟨-, hall⟩ := complete_iff.mp h
  rw [awaits_eq_false, mark_self]
  intro sent hsent
  obtain ⟨j, hj, rfl⟩ := List.getElem_of_mem hsent
  rw [List.length_set, hsized r] at hj
  by_cases hN : j = c.N
  · rw [List.getElem_set, if_pos hN.symm]
  · have hsome := hall j (by omega)
    rw [List.getElem_set, if_neg (Ne.symm hN)]
    exact (List.getElem?_eq_some_iff.mp hsome).2

theorem not_complete_of_sized {c : ProtocolChooseTrent} (hsized : c.Sized c.N) (r : Fin 3) :
    c.complete r = false := by
  rw [Bool.eq_false_iff]
  intro h
  obtain ⟨hN, -⟩ := List.getElem?_eq_some_iff.mp (complete_iff.mp h).1
  rw [hsized r] at hN
  exact lt_irrefl _ hN

/-- The ways in which a step changes the fields, with what the step has found before. -/
inductive Moves (c : ProtocolChooseTrent) : ChooseEvent → ProtocolChooseTrent → Prop
  | stay (e : ChooseEvent) : Moves c e c
  | start (hstepped : c.stepped = false) : Moves c .start c.ask
  | thrown {senderId : ℤ} {j : ℕ} {list2 list : List User} {created : ElGamalKey}
      (hj : indexOf c.parties senderId = .ok j) (h : c.awaits 0 = true)
      (hlist : ∀ u ∈ list, u ∈ c.list) :
      Moves c (.receive senderId (.list list2) created) (c.setList list)
  | listed {senderId : ℤ} {j : ℕ} {list2 list : List User} {created : ElGamalKey}
      (hj : indexOf c.parties senderId = .ok j) (h : c.awaits 0 = true)
      (hretain : Candidates.retain c.list list2 = (.ok (), list)) :
      Moves c (.receive senderId (.list list2) created) ((c.setList list).mark 0 j)
  | announced {senderId : ℤ} {j : ℕ} {list2 list : List User} {created : ElGamalKey}
      (hj : indexOf c.parties senderId = .ok j) (h : c.awaits 0 = true)
      (hretain : Candidates.retain c.list list2 = (.ok (), list))
      (hcomplete : ((c.setList list).mark 0 j).complete 0 = true) :
      Moves c (.receive senderId (.list list2) created) ((c.setList list).mark 0 j).announce
  | counted {senderId number : ℤ} {j : ℕ} {created : ElGamalKey}
      (hj : indexOf c.parties senderId = .ok j) (h : c.awaits 1 = true) :
      Moves c (.receive senderId (.number number) created) (c.count j number)
  | nobody {senderId number : ℤ} {j : ℕ} {created : ElGamalKey}
      (hj : indexOf c.parties senderId = .ok j) (h : c.awaits 1 = true)
      (hcomplete : (c.count j number).complete 1 = true) :
      Moves c (.receive senderId (.number number) created) ((c.count j number).mark 1 c.N)
  | chose {senderId number : ℤ} {j : ℕ} {created : ElGamalKey} {trentUser : User}
      (hj : indexOf c.parties senderId = .ok j) (h : c.awaits 1 = true)
      (hcomplete : (c.count j number).complete 1 = true) (huser : trentUser ∈ c.list) :
      Moves c (.receive senderId (.number number) created)
        (((c.count j number).mark 1 c.N).choose trentUser)
  | adopted {senderId publicKey : ℤ} {j : ℕ} {created : ElGamalKey}
      (hj : indexOf c.parties senderId = .ok j) (h : c.awaits 2 = true) (hkey : c.trentKey = none) :
      Moves c (.receive senderId (.trent publicKey) created)
        ((c.setTrent (some { created with publicKey := publicKey })).mark 2 j)
  | agreed {senderId : ℤ} {j : ℕ} {created key : ElGamalKey}
      (hj : indexOf c.parties senderId = .ok j) (h : c.awaits 2 = true)
      (hkey : c.trentKey = some key) :
      Moves c (.receive senderId (.trent key.publicKey) created) (c.mark 2 j)
  | finished {senderId : ℤ} {j : ℕ} {created key : ElGamalKey}
      (hj : indexOf c.parties senderId = .ok j) (h : c.awaits 2 = true)
      (hkey : c.trentKey = some key) (hcomplete : (c.mark 2 j).complete 2 = true) :
      Moves c (.receive senderId (.trent key.publicKey) created)
        ((c.mark 2 j).mark 2 c.N).nextStep
  | disagreed {senderId publicKey : ℤ} {j : ℕ} {created key : ElGamalKey}
      (hj : indexOf c.parties senderId = .ok j) (h : c.awaits 2 = true)
      (hkey : c.trentKey = some key) (hne : publicKey ≠ key.publicKey) :
      Moves c (.receive senderId (.trent publicKey) created) c.again
  | resumed {k : ℕ} (hrest : c.pending[k]? = some .list) :
      Moves c (.resume k) ((c.resume k).mark 0 c.senderKeyId)
  | confirmed {k : ℕ} {trentUser : User} (hrest : c.pending[k]? = some (.choice trentUser))
      (hkey : ∀ key, c.trentKey = some key → key.publicKey = trentUser.key.publicKey) :
      Moves c (.resume k) ((c.resume k).mark 2 c.senderKeyId)
  | regretted {k : ℕ} {trentUser : User} {key : ElGamalKey}
      (hrest : c.pending[k]? = some (.choice trentUser)) (hkey : c.trentKey = some key)
      (hne : key.publicKey ≠ trentUser.key.publicKey) :
      Moves c (.resume k) ((c.resume k).mark 2 c.senderKeyId).again

theorem moves_list {c : ProtocolChooseTrent} {senderId : ℤ} {j : ℕ} (created : ElGamalKey)
    (hj : indexOf c.parties senderId = .ok j) (list2 : List User) :
    Moves c (.receive senderId (.list list2) created) ((receiveList j list2).exec c).2 := by
  rw [exec_receiveList]
  by_cases h : c.awaits 0 = true
  · rw [if_pos h]
    rcases hretain : Candidates.retain c.list list2 with ⟨e | u, list⟩
    · have hsub := Candidates.retain_sublist c.list list2
      rw [hretain] at hsub
      exact .thrown hj h fun u hu => hsub.subset hu
    · by_cases hcomplete : ((c.setList list).mark 0 j).complete 0 = true
      · simp only [if_pos hcomplete]
        exact .announced hj h hretain hcomplete
      · simp only [if_neg hcomplete]
        exact .listed hj h hretain
  · rw [if_neg h]
    exact .stay _

theorem moves_number {c : ProtocolChooseTrent} {senderId : ℤ} {j : ℕ} (created : ElGamalKey)
    (hj : indexOf c.parties senderId = .ok j) (number : ℤ) :
    Moves c (.receive senderId (.number number) created) ((receiveNumber j number).exec c).2 := by
  have hlist : (c.count j number).list = c.list := by
    unfold count
    split <;> rfl
  have hN : (c.count j number).N = c.N := by
    unfold count
    split <;> rfl
  rw [exec_receiveNumber]
  by_cases h : c.awaits 1 = true
  · rw [if_pos h, exec_pickTrent]
    by_cases hcomplete : (c.count j number).complete 1 = true
    · rw [if_pos hcomplete, hlist, hN]
      cases huser : c.list[((c.count j number).finalNumber % c.list.length).toNat]? with
      | none => exact .nobody hj h hcomplete
      | some trentUser => exact .chose hj h hcomplete (List.mem_of_getElem? huser)
    · rw [if_neg hcomplete]
      exact .counted hj h
  · rw [if_neg h]
    exact .stay _

theorem moves_trent {c : ProtocolChooseTrent} {senderId : ℤ} {j : ℕ} (created : ElGamalKey)
    (hj : indexOf c.parties senderId = .ok j) (publicKey : ℤ) :
    Moves c (.receive senderId (.trent publicKey) created)
      ((receiveTrent j publicKey created).exec c).2 := by
  rw [exec_receiveTrent]
  by_cases h : c.awaits 2 = true
  · rw [if_pos h]
    cases hkey : c.trentKey with
    | none => exact .adopted hj h hkey
    | some key =>
      by_cases hpk : publicKey = key.publicKey
      · subst hpk
        by_cases hcomplete : (c.mark 2 j).complete 2 = true
        · simp only [if_pos hcomplete, if_true]
          exact .finished hj h hkey hcomplete
        · simp only [if_neg hcomplete, if_true]
          exact .agreed hj h hkey
      · simp only [if_neg hpk]
        exact .disagreed hj h hkey hpk
  · rw [if_neg h]
    exact .stay _

theorem moves_goOn {c : ProtocolChooseTrent} {k : ℕ} {rest : Continuation}
    (h : c.pending[k]? = some rest) : Moves c (.resume k) ((goOn rest).exec (c.resume k)).2 := by
  cases rest with
  | list => exact .resumed h
  | choice trentUser =>
    rw [exec_goOn_choice, show (c.resume k).trentKey = c.trentKey from rfl]
    cases hkey : c.trentKey with
    | none => exact .confirmed h (by simp [hkey])
    | some key =>
      by_cases hne : key.publicKey ≠ trentUser.key.publicKey
      · simp only [if_pos hne]
        exact .regretted h hkey hne
      · simp only [if_neg hne]
        refine .confirmed h fun key' hkey' => ?_
        rw [hkey, Option.some.injEq] at hkey'
        exact hkey' ▸ not_not.mp hne

/-- **Every step moves.** -/
theorem moves_next (c : ProtocolChooseTrent) (e : ChooseEvent) : Moves c e (machine.next c e) := by
  change Moves c e ((handle e).exec c).2
  cases e with
  | start =>
    rw [handle, Act.exec_get_bind]
    cases hstepped : c.stepped with
    | true => exact .stay _
    | false => exact .start hstepped
  | receive senderId message created =>
    rw [handle, Act.exec_get_bind]
    cases hj : indexOf c.parties senderId with
    | error e => exact .stay _
    | ok j =>
      rw [Act.exec_ok_bind]
      cases message with
      | list list2 => exact moves_list created hj list2
      | number number => exact moves_number created hj number
      | trent publicKey => exact moves_trent created hj publicKey
  | resume k =>
    rw [handle, Act.exec_get_bind]
    cases hrest : c.pending[k]? with
    | none => exact .stay _
    | some rest => exact moves_goOn hrest

end ProtocolChooseTrent

end SXP.Sigma
