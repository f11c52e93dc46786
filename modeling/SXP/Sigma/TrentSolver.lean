import SXP.Lib.Machine
import SXP.Sigma.Contract

/-!
# The solver of one contract

Trent keeps a solver for each contract.  A claim of a party is a round and a
message; claims that may be honest are stored in a list of maps, one for each
index, and a claim that is shown to be dishonest is moved out of it.  Three
loops look for dishonesty before the claim itself is answered.

The loops compare the sender with the stored ones in two ways: `!=` tells
objects apart, the maps compare the text.  A sender is therefore an object with
a text here, and the claim of the caller brings its own object.
-/

namespace SXP.Sigma

open SXP.Lib SXP.Lib.Java SXP.Lib.BigInteger SXP.Lib.Text

/-! ### The response of Trent -/

namespace Trent

def sendMasks (keys : ElGamalKey) (res : ResEncrypt) (s : ℕ) : Java Masks := do
  let a ← modPow keys.g s keys.p
  let aBis ← modPow res.u s keys.p
  return ⟨a, some aBis⟩

/-- The hashed text starts with what the message object prints as, `name`, and
not with the message itself. -/
def sendChallenge (hash : List UInt8 → Digest) (name : String) (mask : Masks) : ℤ :=
  signedValue (hash (getBytes (name ++ decimal mask.a))).val

def sendAnswer (keys : ElGamalKey) (challenge : ℤ) (s : ℕ) : Java ℤ := do
  let x ← nonNull keys.privateKey
  return SigmaProtocol.respond x s challenge

def sendResponse (hash : List UInt8 → Digest) (keys : ElGamalKey) (res : ResEncrypt)
    (name : String) (s : ℕ) : Java Responses := do
  let mask ← sendMasks keys res s
  let challenge := sendChallenge hash name mask
  let response ← sendAnswer keys challenge s
  return ⟨.ccd, mask, challenge, response⟩

end Trent

/-! ### Stored claims -/

/-- A string object: `ref` is its identity, `value` its text. -/
structure StringRef where
  ref : ℕ
  value : String
deriving DecidableEq, Repr

/-- A map from senders to their messages. -/
abbrev Claims : Type := List (StringRef × String)

namespace Claims

def get (m : Claims) (s : String) : Option String :=
  (m.find? fun e => e.1.value == s).map Prod.snd

def remove (m : Claims) (s : String) : Claims := m.filter fun e => e.1.value != s

/-- The first entry whose key is another object than `s`. -/
def other (m : Claims) (s : StringRef) : Option (StringRef × String) :=
  m.find? fun e => e.1.ref != s.ref

/-- Maps are equal when they have the same size and the same entries. -/
def equals (m m' : Claims) : Bool :=
  m.length == m'.length && m.all fun e => m'.get e.1.value == some e.2

theorem mem_of_other {m : Claims} {s : StringRef} {e : StringRef × String}
    (h : m.other s = some e) : e ∈ m := List.mem_of_find?_eq_some h

theorem exists_of_get {m : Claims} {s x : String} (h : m.get s = some x) :
    ∃ e ∈ m, e.1.value = s := by
  rw [get, Option.map_eq_some_iff] at h
  obtain ⟨e, he, -⟩ := h
  have hv := List.find?_some he
  exact ⟨e, List.mem_of_find?_eq_some he, beq_iff_eq.mp hv⟩

/-- A sender that is no key of the map finds every entry to be another one. -/
theorem other_eq_none {m : Claims} {s : StringRef} (hfresh : ∀ e ∈ m, e.1.ref ≠ s.ref) :
    m.other s = none ↔ m = [] := by
  constructor
  · intro h
    cases m with
    | nil => rfl
    | cons e m =>
      have he := List.find?_eq_none.mp h e List.mem_cons_self
      exact absurd (bne_iff_ne.mpr (hfresh e List.mem_cons_self)) he
  · rintro rfl
    rfl

end Claims

structure TrentSolver where
  optimistic : Bool
  possiblyHonestClaims : List Claims
  dishonestClaims : String → Option (String × String)

/-- What a call answers; the two tokens show the maps at that moment. -/
inductive Answer where
  | honestyToken (claims : List Claims) (dishonest : String → Option (String × String))
  | resolved (signatures : List SigmaSignature)
  | aborted (claims : List Claims) (dishonest : String → Option (String × String))

/-- What the solver works with: its contract, Trent's keys and the reading of a
message as an array of promises, null where the text is no such array. -/
structure Arbiter where
  hash : List UInt8 → Digest
  contract : SigmaContract
  keys : ElGamalKey
  toOrs : String → Option (List (Option OrClause))

/-- One call of `resolveT`.  `name` is what the array of signed data prints as,
and `s` gives the exponents of Trent's masks. -/
structure Call where
  m : String
  round : ℤ
  senderId : StringRef
  name : String
  s : ℕ → ℕ

namespace TrentSolver

def initial : TrentSolver := ⟨true, [], fun _ => none⟩

/-- `dishonestClaims.put(s, evidence)`. -/
def accused (st : TrentSolver) (s : String) (evidence : String × String) : TrentSolver :=
  { st with dishonestClaims := fun s' => if s' = s then some evidence else st.dishonestClaims s' }

/-- `possiblyHonestClaims.get(k).remove(s)`. -/
def remove (st : TrentSolver) (k : ℕ) (s : String) : TrentSolver :=
  { st with possiblyHonestClaims := st.possiblyHonestClaims.modify k fun m => m.remove s }

/-- `possiblyHonestClaims.add(k, {s: m})`: what is stored from `k` on moves up. -/
def add (st : TrentSolver) (k : ℕ) (s : StringRef) (m : String) : TrentSolver :=
  { st with possiblyHonestClaims := st.possiblyHonestClaims.insertIdx k [(s, m)] }

def honestyToken (st : TrentSolver) : Answer :=
  .honestyToken st.possiblyHonestClaims st.dishonestClaims

def abortToken (st : TrentSolver) : Answer :=
  .aborted st.possiblyHonestClaims st.dishonestClaims

/-! ### The loops -/

/-- The first loop, for `n` indices from `k` on: somebody stored there continued
beyond that round.  The list is read without a look at its size. -/
def accuses (claims : List Claims) (s : StringRef) :
    ℕ → ℕ → Java (Option (ℕ × StringRef × String))
  | _, 0 => pure none
  | k, n + 1 =>
      match claims[k]? with
      | none => throw .indexOutOfBounds
      | some m =>
          match m.other s with
          | some e => pure (some (k, e))
          | none => accuses claims s (k + 1) n

/-- The second loop: the sender is stored already, for another round. -/
def repeats (claims : List Claims) (s : String) (round : ℤ) : Option (ℕ × String) :=
  claims.findSome? fun m =>
    match m.get s with
    | none => none
    | some x =>
        let k := claims.findIdx fun m' => m.equals m'
        if (k : ℤ) ≠ round then some (k, x) else none

/-- The third loop, for the indices between `round` and `N`: somebody is stored
there.  An index that the list does not have is passed over. -/
def overtaken (claims : List Claims) (s : StringRef) (round : ℤ) (N : ℕ) :
    Option (ℕ × StringRef × String) :=
  (List.range N).findSome? fun (k : ℕ) =>
    if round < (k : ℤ) then
      match claims[k]? with
      | none => none
      | some m => (m.other s).map fun e => (k, e)
    else none

/-- The signature of the `k`-th party: its promise, opened by Trent. -/
def openPromise (A : Arbiter) (orT : Option (List (Option OrClause))) (name : String) (s : ℕ → ℕ)
    (k : ℕ) : Java SigmaSignature := do
  let orT ← nonNull orT
  match orT[k]? with
  | none => throw .indexOutOfBounds
  | some o => do
      let o ← nonNull o
      let and0 ← first o.ands
      let response ← Trent.sendResponse A.hash A.keys and0.resEncrypt name (s k)
      return ⟨o, response, A.keys.getPublicKeys⟩

def resolveToken (A : Arbiter) (c : Call) : Java (List SigmaSignature) :=
  Java.collect (openPromise A (A.toOrs c.m) c.name c.s) (List.range A.contract.parties.length)

def resolveT (A : Arbiter) (st : TrentSolver) (c : Call) : Java (Option Answer) × TrentSolver :=
  let s := c.senderId
  match accuses st.possiblyHonestClaims s 0 (c.round - 1).toNat with
  | .error e => (.error e, st)
  | .ok (some (k, s', x)) =>
      let st' := (st.accused s'.value (x, c.m)).remove k s'.value
      (.ok (some st'.honestyToken), st')
  | .ok none =>
      match repeats st.possiblyHonestClaims s.value c.round with
      | some (k, x) => (.ok none, (st.accused s.value (c.m, x)).remove k s.value)
      | none =>
          match overtaken st.possiblyHonestClaims s c.round A.contract.parties.length with
          | some (k, e) => (.ok none, (st.accused s.value (c.m, e.2)).remove k s.value)
          | none =>
              if (st.possiblyHonestClaims = [] ∧ 0 < c.round) ∨ st.optimistic = false then
                let st' := { st with optimistic := false }
                match resolveToken A c with
                | .ok token => (.ok (some (.resolved token)), st')
                | .error e => (.error e, st')
              else if 0 ≤ c.round ∧ c.round ≤ st.possiblyHonestClaims.length then
                let st' := st.add c.round.toNat s c.m
                (.ok (some st'.abortToken), st')
              else (.error .indexOutOfBounds, st)

def machine (A : Arbiter) : Machine TrentSolver Call (Java (Option Answer)) := ⟨resolveT A⟩

/-! ### What one call does -/

/-- The seven exits of a call: the answer and the state it leaves. -/
inductive Exit (A : Arbiter) (st : TrentSolver) (c : Call) :
    Java (Option Answer) → TrentSolver → Prop where
  | beyond (e : JavaException)
      (h : accuses st.possiblyHonestClaims c.senderId 0 (c.round - 1).toNat = .error e) :
      Exit A st c (.error e) st
  | shown (k : ℕ) (s : StringRef) (x : String)
      (h : accuses st.possiblyHonestClaims c.senderId 0 (c.round - 1).toNat = .ok (some (k, s, x))) :
      Exit A st c (.ok (some ((st.accused s.value (x, c.m)).remove k s.value).honestyToken))
        ((st.accused s.value (x, c.m)).remove k s.value)
  | repeated (k : ℕ) (x : String)
      (h : accuses st.possiblyHonestClaims c.senderId 0 (c.round - 1).toNat = .ok none)
      (h' : repeats st.possiblyHonestClaims c.senderId.value c.round = some (k, x)) :
      Exit A st c (.ok none) ((st.accused c.senderId.value (c.m, x)).remove k c.senderId.value)
  | overtaken (k : ℕ) (e : StringRef × String)
      (h : accuses st.possiblyHonestClaims c.senderId 0 (c.round - 1).toNat = .ok none)
      (h' : repeats st.possiblyHonestClaims c.senderId.value c.round = none)
      (h'' : TrentSolver.overtaken st.possiblyHonestClaims c.senderId c.round
        A.contract.parties.length = some (k, e)) :
      Exit A st c (.ok none) ((st.accused c.senderId.value (c.m, e.2)).remove k c.senderId.value)
  | opened (h : accuses st.possiblyHonestClaims c.senderId 0 (c.round - 1).toNat = .ok none)
      (h' : (st.possiblyHonestClaims = [] ∧ 0 < c.round) ∨ st.optimistic = false) :
      Exit A st c ((resolveToken A c).map fun token => some (.resolved token))
        { st with optimistic := false }
  | stored (h : accuses st.possiblyHonestClaims c.senderId 0 (c.round - 1).toNat = .ok none)
      (h' : repeats st.possiblyHonestClaims c.senderId.value c.round = none)
      (h'' : TrentSolver.overtaken st.possiblyHonestClaims c.senderId c.round
        A.contract.parties.length = none)
      (ho : ¬ ((st.possiblyHonestClaims = [] ∧ 0 < c.round) ∨ st.optimistic = false))
      (h0 : 0 ≤ c.round) (hle : c.round ≤ st.possiblyHonestClaims.length) :
      Exit A st c (.ok (some (st.add c.round.toNat c.senderId c.m).abortToken))
        (st.add c.round.toNat c.senderId c.m)
  | outside (h : accuses st.possiblyHonestClaims c.senderId 0 (c.round - 1).toNat = .ok none)
      (h' : repeats st.possiblyHonestClaims c.senderId.value c.round = none)
      (h'' : TrentSolver.overtaken st.possiblyHonestClaims c.senderId c.round
        A.contract.parties.length = none)
      (ho : ¬ ((st.possiblyHonestClaims = [] ∧ 0 < c.round) ∨ st.optimistic = false))
      (hr : ¬ (0 ≤ c.round ∧ c.round ≤ st.possiblyHonestClaims.length)) :
      Exit A st c (.error .indexOutOfBounds) st

theorem exit (A : Arbiter) (st : TrentSolver) (c : Call) :
    Exit A st c ((machine A).out st c) ((machine A).next st c) := by
  rw [Machine.out, Machine.next, machine]
  dsimp only
  rw [resolveT]
  cases ha : accuses st.possiblyHonestClaims c.senderId 0 (c.round - 1).toNat with
  | error e => exact .beyond e ha
  | ok found =>
    cases found with
    | some found =>
      obtain ⟨k, s, x⟩ := found
      exact .shown k s x ha
    | none =>
      cases hr : repeats st.possiblyHonestClaims c.senderId.value c.round with
      | some found =>
        obtain ⟨k, x⟩ := found
        exact .repeated k x ha hr
      | none =>
        cases ho : TrentSolver.overtaken st.possiblyHonestClaims c.senderId c.round
          A.contract.parties.length with
        | some found =>
          obtain ⟨k, e⟩ := found
          exact .overtaken k e ha hr ho
        | none =>
          dsimp only
          by_cases hopen : (st.possiblyHonestClaims = [] ∧ 0 < c.round) ∨ st.optimistic = false
          · rw [if_pos hopen]
            have h := Exit.opened (A := A) ha hopen
            cases ht : resolveToken A c with
            | error e => rw [ht] at h; exact h
            | ok token => rw [ht] at h; exact h
          · rw [if_neg hopen]
            by_cases hrange : 0 ≤ c.round ∧ c.round ≤ st.possiblyHonestClaims.length
            · rw [if_pos hrange]
              exact .stored ha hr ho hopen hrange.1 hrange.2
            · rw [if_neg hrange]
              exact .outside ha hr ho hopen hrange

/-! ### What the loops find -/

theorem accuses_eq_none {claims : List Claims} {s : StringRef} : ∀ {n k : ℕ},
    accuses claims s k n = .ok none ↔
      ∀ i, k ≤ i → i < k + n → ∃ m, claims[i]? = some m ∧ m.other s = none := by
  intro n
  induction n with
  | zero =>
    intro k
    simp only [accuses, pure_eq, true_iff]
    intro i h1 h2
    omega
  | succ n ih =>
    intro k
    rw [accuses]
    constructor
    · intro h i h1 h2
      cases hm : claims[k]? with
      | none => rw [hm] at h; exact absurd h (by simp)
      | some m =>
        rw [hm] at h
        cases hother : m.other s with
        | some e => simp only [hother] at h; exact absurd h (by simp)
        | none =>
          simp only [hother] at h
          by_cases hi : i = k
          · subst hi
            exact ⟨m, hm, hother⟩
          · exact ih.mp h i (by omega) (by omega)
    · intro h
      obtain ⟨m, hm, hother⟩ := h k (le_refl k) (by omega)
      simp only [hm, hother]
      exact ih.mpr fun i h1 h2 => h i (by omega) (by omega)

/-- The first loop finds the first one that is another object than the sender. -/
theorem accuses_eq_some_iff {claims : List Claims} {s : StringRef} {e : StringRef × String}
    {i : ℕ} : ∀ {n k : ℕ}, accuses claims s k n = .ok (some (i, e)) ↔
      k ≤ i ∧ i < k + n ∧ (∃ m, claims[i]? = some m ∧ m.other s = some e) ∧
      ∀ j, k ≤ j → j < i → ∃ m, claims[j]? = some m ∧ m.other s = none := by
  intro n
  induction n with
  | zero =>
    intro k
    simp only [accuses, pure_eq, Except.ok.injEq, reduceCtorEq, false_iff, not_and]
    intro h1 h2
    omega
  | succ n ih =>
    intro k
    rw [accuses]
    cases hm : claims[k]? with
    | none =>
      refine iff_of_false (by simp) ?_
      rintro ⟨hk, -, ⟨m, hi, -⟩, hbefore⟩
      rcases Nat.eq_or_lt_of_le hk with rfl | hlt
      · exact absurd (hm.symm.trans hi) (by simp)
      · obtain ⟨m', hk', -⟩ := hbefore k (le_refl k) hlt
        exact absurd (hm.symm.trans hk') (by simp)
    | some m =>
      cases hother : m.other s with
      | some e' =>
        simp only [hother, pure_eq, Except.ok.injEq, Option.some.injEq, Prod.mk.injEq]
        constructor
        · rintro ⟨rfl, rfl⟩
          exact ⟨le_refl _, by omega, ⟨m, hm, hother⟩, fun j h1 h2 => by omega⟩
        · rintro ⟨hk, -, ⟨m', hi, hother'⟩, hbefore⟩
          rcases Nat.eq_or_lt_of_le hk with rfl | hlt
          · obtain rfl := Option.some.inj (hm.symm.trans hi)
            exact ⟨rfl, Option.some.inj (hother.symm.trans hother')⟩
          · obtain ⟨m'', hk', hnone⟩ := hbefore k (le_refl k) hlt
            obtain rfl := Option.some.inj (hm.symm.trans hk')
            exact absurd (hother.symm.trans hnone) (by simp)
      | none =>
        simp only [hother]
        rw [ih]
        constructor
        · rintro ⟨hk, hlt, hfound, hbefore⟩
          refine ⟨by omega, by omega, hfound, fun j h1 h2 => ?_⟩
          rcases Nat.eq_or_lt_of_le h1 with rfl | hlt'
          · exact ⟨m, hm, hother⟩
          · exact hbefore j hlt' h2
        · rintro ⟨hk, hlt, hfound, hbefore⟩
          refine ⟨?_, by omega, hfound, fun j h1 h2 => hbefore j (by omega) h2⟩
          rcases Nat.eq_or_lt_of_le hk with rfl | hlt'
          · obtain ⟨m', hi, hother'⟩ := hfound
            obtain rfl := Option.some.inj (hm.symm.trans hi)
            exact absurd (hother.symm.trans hother') (by simp)
          · exact hlt'

theorem accuses_eq_some {claims : List Claims} {s s' : StringRef} {x : String} {i n k : ℕ}
    (h : accuses claims s k n = .ok (some (i, s', x))) :
    k ≤ i ∧ i < k + n ∧ ∃ m, claims[i]? = some m ∧ m.other s = some (s', x) := by
  obtain ⟨h1, h2, h3, -⟩ := accuses_eq_some_iff.mp h
  exact ⟨h1, h2, h3⟩

theorem accuses_error {claims : List Claims} {s : StringRef} {e : JavaException} :
    ∀ {n k : ℕ}, accuses claims s k n = .error e → claims.length < k + n ∧
      ∀ i, k ≤ i → ∀ m, claims[i]? = some m → m.other s = none := by
  intro n
  induction n with
  | zero =>
    intro k h
    exact absurd h (by simp [accuses])
  | succ n ih =>
    intro k h
    rw [accuses] at h
    cases hm : claims[k]? with
    | none =>
      have hlen := List.getElem?_eq_none_iff.mp hm
      refine ⟨by omega, ?_⟩
      intro i hi m hmi
      rw [List.getElem?_eq_none (by omega)] at hmi
      exact absurd hmi (by simp)
    | some m =>
      rw [hm] at h
      cases hother : m.other s with
      | some e => simp only [hother] at h; exact absurd h (by simp)
      | none =>
        simp only [hother] at h
        obtain ⟨h1, h2⟩ := ih h
        refine ⟨by omega, ?_⟩
        intro i hi m' hm'
        by_cases hik : i = k
        · subst hik
          rw [hm] at hm'
          obtain rfl := Option.some.inj hm'
          exact hother
        · exact h2 i (by omega) m' hm'

theorem repeats_some {claims : List Claims} {s x : String} {round : ℤ} {k : ℕ}
    (h : repeats claims s round = some (k, x)) : ∃ m ∈ claims, ∃ e ∈ m, e.1.value = s := by
  obtain ⟨m, hm, hf⟩ := List.exists_of_findSome?_eq_some h
  cases hg : m.get s with
  | none => rw [hg] at hf; exact absurd hf (by simp)
  | some y => exact ⟨m, hm, Claims.exists_of_get hg⟩

theorem overtaken_eq_none {claims : List Claims} {s : StringRef} {round : ℤ} {N : ℕ} :
    overtaken claims s round N = none ↔
      ∀ k : ℕ, round < k → k < N → ∀ m, claims[k]? = some m → m.other s = none := by
  rw [overtaken, List.findSome?_eq_none_iff]
  constructor
  · intro h k hk hN m hm
    have hf := h k (List.mem_range.mpr hN)
    rw [if_pos hk, hm] at hf
    exact Option.map_eq_none_iff.mp hf
  · intro h k hN
    by_cases hk : round < (k : ℤ)
    · rw [if_pos hk]
      cases hm : claims[k]? with
      | none => rfl
      | some m => exact Option.map_eq_none_iff.mpr (h k hk (List.mem_range.mp hN) m hm)
    · rw [if_neg hk]

theorem overtaken_first {claims : List Claims} {s : StringRef} {round : ℤ} {N k : ℕ}
    {e : StringRef × String} (h : overtaken claims s round N = some (k, e)) :
    round < k ∧ k < N ∧ (∃ m, claims[k]? = some m ∧ m.other s = some e) ∧
    ∀ i : ℕ, round < i → i < k → ∀ m, claims[i]? = some m → m.other s = none := by
  obtain ⟨front, k', back, hsplit, hf, hfront⟩ := List.findSome?_eq_some_iff.mp h
  obtain ⟨hlt, m, hm, hfound⟩ : round < (k' : ℤ) ∧ ∃ m, claims[k']? = some m ∧
      (m.other s).map (fun e => (k', e)) = some (k, e) := by
    by_cases hr : round < (k' : ℤ)
    · rw [if_pos hr] at hf
      cases hm : claims[k']? with
      | none => rw [hm] at hf; exact absurd hf (by simp)
      | some m => exact ⟨hr, m, rfl, by rw [hm] at hf; exact hf⟩
    · rw [if_neg hr] at hf
      exact absurd hf (by simp)
  obtain ⟨e', hother, heq⟩ := Option.map_eq_some_iff.mp hfound
  obtain ⟨rfl, rfl⟩ := Prod.mk.inj heq
  have hlen : front.length + (back.length + 1) = N := by
    rw [← List.length_range (n := N), hsplit, List.length_append, List.length_cons]
  have hat : front.length = k' := by
    have hget := List.getElem?_range (n := N) (i := front.length) (by omega)
    rw [hsplit, List.getElem?_append_right (le_refl _), Nat.sub_self] at hget
    exact (Option.some.inj hget).symm
  refine ⟨hlt, by omega, ⟨m, hm, hother⟩, ?_⟩
  intro i hi hik mi hmi
  have hget : front[i]? = some i := by
    have hrange := List.getElem?_range (n := N) (i := i) (by omega)
    rwa [hsplit, List.getElem?_append_left (by omega)] at hrange
  have hnone := hfront i (List.mem_of_getElem? hget)
  rw [if_pos hi, hmi] at hnone
  exact Option.map_eq_none_iff.mp hnone

theorem overtaken_some {claims : List Claims} {s : StringRef} {round : ℤ} {N k : ℕ}
    {e : StringRef × String} (h : overtaken claims s round N = some (k, e)) :
    round < k ∧ k < N ∧ ∃ m, claims[k]? = some m ∧ e ∈ m := by
  obtain ⟨hr, hN, ⟨m, hm, hother⟩, -⟩ := overtaken_first h
  exact ⟨hr, hN, m, hm, Claims.mem_of_other hother⟩

/-! ### Where the stored claims come from -/

/-- A stored claim was made in one of the calls `pre`, for a round that is not above
its index. -/
def Stored (pre : List Call) (st : TrentSolver) : Prop :=
  ∀ (k : ℕ) (m : Claims), st.possiblyHonestClaims[k]? = some m → ∀ e ∈ m,
    ∃ c ∈ pre, c.senderId = e.1 ∧ c.round ≤ k

theorem Stored.mono {pre : List Call} {st : TrentSolver} (h : st.Stored pre) (c : Call) :
    st.Stored (pre ++ [c]) := by
  intro k m hm e he
  obtain ⟨c', hc', hs, hr⟩ := h k m hm e he
  exact ⟨c', List.mem_append_left _ hc', hs, hr⟩

theorem Stored.remove {pre : List Call} {st : TrentSolver} (h : st.Stored pre) (k : ℕ)
    (s s' : String) (ev : String × String) : ((st.accused s ev).remove k s').Stored pre := by
  intro i m hm e he
  have hmod : (st.possiblyHonestClaims.modify k fun m => m.remove s')[i]? = some m := hm
  rw [List.getElem?_modify] at hmod
  obtain ⟨m', hm', heq⟩ := Option.map_eq_some_iff.mp hmod
  refine h i m' hm' e ?_
  by_cases hk : k = i
  · rw [if_pos hk] at heq
    rw [← heq] at he
    exact List.mem_of_mem_filter he
  · rw [if_neg hk] at heq
    rwa [heq]

theorem Stored.add {pre : List Call} {st : TrentSolver} (h : st.Stored pre) {c : Call}
    (h0 : 0 ≤ c.round) (hle : c.round ≤ st.possiblyHonestClaims.length) :
    (st.add c.round.toNat c.senderId c.m).Stored (pre ++ [c]) := by
  intro i m hm e he
  have hins : (st.possiblyHonestClaims.insertIdx c.round.toNat [(c.senderId, c.m)])[i]? = some m := hm
  rw [List.getElem?_insertIdx] at hins
  split at hins
  · exact h.mono c i m hins e he
  · rename_i hlt
    split at hins
    · rename_i heq
      rw [if_pos (by omega)] at hins
      obtain rfl := Option.some.inj hins
      obtain rfl := List.mem_singleton.mp he
      exact ⟨c, by simp, rfl, by omega⟩
    · obtain ⟨c', hc', hs, hr⟩ := h.mono c (i - 1) m hins e he
      exact ⟨c', hc', hs, by omega⟩

theorem next_stored (A : Arbiter) {pre : List Call} {st : TrentSolver} (c : Call)
    (h : st.Stored pre) : ((machine A).next st c).Stored (pre ++ [c]) := by
  have hx := exit A st c
  generalize (machine A).out st c = o at hx
  generalize (machine A).next st c = st' at hx ⊢
  cases hx with
  | beyond e _ => exact h.mono c
  | shown k s x _ => exact (h.remove _ _ _ _).mono c
  | repeated k x _ _ => exact (h.remove _ _ _ _).mono c
  | overtaken k e _ _ _ => exact (h.remove _ _ _ _).mono c
  | opened _ _ => exact h.mono c
  | stored _ _ _ _ h0 hle => exact h.add h0 hle
  | outside _ _ _ _ _ => exact h.mono c

theorem run_stored (A : Arbiter) (calls : List Call) :
    ((machine A).run initial calls).Stored calls := by
  refine (machine A).invariant_inputs (I := fun pre st => st.Stored pre) ?_
    (fun pre c h => next_stored A c h) calls
  intro k m hm
  exact absurd hm (by simp [initial])

/-- A sender whose object is new finds every stored claim to be another one. -/
theorem other_of_fresh {pre : List Call} {st : TrentSolver} (h : st.Stored pre) {s : StringRef}
    (hfresh : ∀ c ∈ pre, c.senderId.ref ≠ s.ref) {k : ℕ} {m : Claims}
    (hm : st.possiblyHonestClaims[k]? = some m) : m.other s = none ↔ m = [] := by
  refine Claims.other_eq_none ?_
  intro e he
  obtain ⟨c, hc, hs, -⟩ := h k m hm e he
  rw [← hs]
  exact hfresh c hc

end TrentSolver

end SXP.Sigma
