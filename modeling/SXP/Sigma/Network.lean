import SXP.Sigma.Writes

/-!
# Parties on a network

The honest parties of one contract, and an environment that decides what
happens next.  It may deliver any message that was sent, to any party, in any
order and any number of times; it may make up messages, but not under the id of
an honest party; and it may make up everything that Trent answers.
-/

namespace SXP.Sigma

open SXP.Lib SXP.Lib.Java

/-- The parties of one contract.  Every party has its own copy of the contract, with the
same parties and clauses; the keys of the honest ones are key pairs. -/
structure Setting (n : ℕ) where
  platform : Platform
  keys : Fin n → ElGamalKey
  trentK : ElGamalKey
  contract : Fin n → SigmaContract
  chooseRound : Fin n → ℤ
  honest : Fin n → Bool
  parties : ∀ i, (contract i).parties = List.ofFn fun j => (keys j).getPublicKeys
  clauses : ∀ i j, (contract i).clauses = (contract j).clauses
  distinct : Function.Injective fun i => (keys i).publicKey
  trent : trentK.Valid
  valid : ∀ i, honest i = true → (keys i).Valid
  owned : ∀ i, honest i = true → (keys i).Owned

/-- Something happens at one party, or a message that one party sent reaches another. -/
inductive NetEvent (n : ℕ) where
  | act (j : Fin n) (e : Event)
  | deliver (i j : Fin n) (m : ℕ) (d : Draws)

namespace Setting

variable {n : ℕ} (S : Setting n)

def Foreign (senderId : ℤ) : Prop := ∀ i, S.honest i = true → (S.keys i).publicKey ≠ senderId

instance (senderId : ℤ) : Decidable (S.Foreign senderId) :=
  inferInstanceAs (Decidable (∀ i, S.honest i = true → (S.keys i).publicKey ≠ senderId))

/-- What a network event is for the party it happens at: a message is received under the
id of its sender. -/
def localEvent (s : Fin n → Party) : NetEvent n → Option (Fin n × Event)
  | .act j (.receive message senderId d) =>
      if S.Foreign senderId then some (j, .receive message senderId d) else none
  | .act j e => some (j, e)
  | .deliver i j m d =>
      match (s i).sent[m]? with
      | some (.signing round content) =>
          some (j, .receive (.ofContent round content) (S.keys i).publicKey d)
      | _ => none

def machine : Machine (Fin n → Party) (NetEvent n) (Java Unit) where
  step s e :=
    match S.localEvent s e with
    | none => (.ok (), s)
    | some (j, e) =>
        let (result, p) := (Party.machine S.platform).step (s j) e
        (result, Function.update s j p)

def initial (i : Fin n) : Party :=
  Party.initial (S.keys i) S.trentK (S.contract i) (S.chooseRound i)

theorem next_of_none {s : Fin n → Party} {e : NetEvent n} (h : S.localEvent s e = none) :
    S.machine.next s e = s := by
  simp only [Machine.next, machine, h]

theorem next_of_some {s : Fin n → Party} {e : NetEvent n} {j : Fin n} {e' : Event}
    (h : S.localEvent s e = some (j, e')) :
    S.machine.next s e = Function.update s j ((Party.machine S.platform).next (s j) e') := by
  simp only [Machine.next, machine, h]

/-! ### Indices -/

variable {S}

theorem parties_of_same {p : Party} {i : Fin n} (h : Party.Same (S.initial i) p) :
    p.contract.parties = List.ofFn fun j => (S.keys j).getPublicKeys :=
  h.parties.trans (S.parties i)

theorem N_of_same {p : Party} {i : Fin n} (h : Party.Same (S.initial i) p) : p.N = n := by
  rw [Party.N, parties_of_same h, List.length_ofFn]

theorem getElem?_of_same {p : Party} {i : Fin n} (h : Party.Same (S.initial i) p) {k : ℕ}
    {key : ElGamalKey} :
    p.contract.parties[k]? = some key ↔ ∃ j : Fin n, j.val = k ∧ key = (S.keys j).getPublicKeys := by
  rw [parties_of_same h, List.getElem?_ofFn]
  by_cases hk : k < n
  · rw [dif_pos hk, Option.some.injEq]
    constructor
    · rintro rfl
      exact ⟨⟨k, hk⟩, rfl, rfl⟩
    · rintro ⟨j, rfl, rfl⟩
      rfl
  · rw [dif_neg hk]
    constructor
    · intro hf
      exact absurd hf (by simp)
    · rintro ⟨j, rfl, -⟩
      exact absurd j.isLt hk

/-- The loop over the parties finds exactly the parties, each at its index. -/
theorem indexOf_of_same {p : Party} {i : Fin n} (h : Party.Same (S.initial i) p) {senderId : ℤ}
    {k : ℕ} : p.indexOf senderId = .ok k ↔
      ∃ j : Fin n, j.val = k ∧ (S.keys j).publicKey = senderId := by
  have hfind : p.indexOf senderId = .ok k ↔
      p.contract.parties.findIdx? (fun key => key.publicKey == senderId) = some k := by
    unfold Party.indexOf
    cases p.contract.parties.findIdx? fun key => key.publicKey == senderId with
    | none => simp
    | some k' => simp
  rw [hfind, parties_of_same h]
  exact ElGamalKey.findIdx?_publicKey S.distinct

end Setting

end SXP.Sigma
