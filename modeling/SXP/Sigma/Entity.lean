import SXP.Lib.Sha256
import SXP.Lib.Text
import Mathlib.Algebra.GroupWithZero.Nat
import Mathlib.Data.List.OfFn

/-!
# Keys, responses and signatures

The data that parties exchange.  A promise is an `OrClause`: two `AndClause`s,
each with a Schnorr response and a response about the encrypted identity, and
next to them the map `rK` from a response to the key it is checked under.  A
signature is a promise with a revealer.

The maps compare keys with `equals` and `hashCode`, so both are here as the
classes define them: responses of two classes never meet in one bucket,
because the class adds its own constant to the hash.
-/

namespace SXP.Sigma

open SXP.Lib SXP.Lib.Java

/-! ### Numerals of two parties and of three rounds -/

instance (priority := high) neZero_two : NeZero 2 := ⟨Nat.succ_ne_zero 1⟩

instance (priority := high) neZero_three : NeZero 3 := ⟨Nat.succ_ne_zero 2⟩

/-! ### Keys -/

structure ElGamalKey where
  publicKey : ℤ
  p : ℤ
  g : ℤ
  privateKey : Option ℤ
deriving DecidableEq, Repr

namespace ElGamalKey

/-- Two keys are equal when their public parts are. -/
def equals (k k' : ElGamalKey) : Bool :=
  k.p == k'.p && k.g == k'.g && k.publicKey == k'.publicKey

def getPublicKeys (k : ElGamalKey) : ElGamalKey := { k with privateKey := none }

theorem equals_iff {k k' : ElGamalKey} :
    k.equals k' = true ↔ k.p = k'.p ∧ k.g = k'.g ∧ k.publicKey = k'.publicKey := by
  simp [equals, and_assoc]

@[simp] theorem equals_refl (k : ElGamalKey) : k.equals k = true := equals_iff.mpr ⟨rfl, rfl, rfl⟩

/-- The loop over the keys of a contract finds exactly the parties, each at its index. -/
theorem findIdx?_publicKey {n : ℕ} {keys : Fin n → ElGamalKey}
    (hdistinct : Function.Injective fun i => (keys i).publicKey) {publicKey : ℤ} {k : ℕ} :
    (List.ofFn fun j => (keys j).getPublicKeys).findIdx? (fun key => key.publicKey == publicKey)
      = some k ↔ ∃ j : Fin n, j.val = k ∧ (keys j).publicKey = publicKey := by
  rw [List.findIdx?_eq_some_iff_getElem]
  constructor
  · rintro ⟨hlt, hkey, -⟩
    rw [List.length_ofFn] at hlt
    rw [List.getElem_ofFn] at hkey
    exact ⟨⟨k, hlt⟩, rfl, beq_iff_eq.mp hkey⟩
  · rintro ⟨j, rfl, rfl⟩
    refine ⟨by rw [List.length_ofFn]; exact j.isLt, ?_, ?_⟩
    · rw [List.getElem_ofFn]
      exact beq_iff_eq.mpr rfl
    · -- an earlier party has another key
      intro m hm hkey
      rw [List.getElem_ofFn] at hkey
      have hsame : (⟨m, hm.trans j.isLt⟩ : Fin n) = j := hdistinct (beq_iff_eq.mp hkey)
      rw [← hsame] at hm
      exact absurd hm (lt_irrefl _)

end ElGamalKey

/-- The identity that is encrypted for Trent: the first 125 digits of the
public key, as bytes. -/
def getIdentificationData (k : ElGamalKey) : Java (List UInt8) := do
  let data ← Text.substring (Text.decimal k.publicKey) 125
  return Text.getBytes data

/-! ### Responses -/

structure Masks where
  a : ℤ
  aBis : Option ℤ
deriving DecidableEq, Repr

namespace Masks

def equals (m m' : Masks) : Bool := m.a == m'.a && m.aBis == m'.aBis

def hashCode (m : Masks) : Int32 :=
  match m.aBis with
  | none => BigInteger.intValue m.a
  | some aBis => BigInteger.intValue m.a + BigInteger.intValue aBis

end Masks

inductive ResponsesKind where
  | schnorr
  | cce
  | ccd
deriving DecidableEq, Repr

/-- What each class adds to the hash of the abstract class. -/
def ResponsesKind.hashOffset : ResponsesKind → Int32
  | .schnorr => 1
  | .cce => 3
  | .ccd => 2

theorem ResponsesKind.hashOffset_inj : ∀ {k k' : ResponsesKind},
    k.hashOffset = k'.hashOffset → k = k' := by
  intro k k'
  cases k <;> cases k' <;> decide

structure Responses where
  kind : ResponsesKind
  masks : Masks
  challenge : ℤ
  response : ℤ
deriving DecidableEq, Repr

namespace Responses

/-- `equals` of the abstract class. -/
def superEquals (r o : Responses) : Bool :=
  o.masks.equals r.masks && o.response == r.response && o.challenge == r.challenge

/-- Two of the classes ask for an argument of their own class first. -/
def equals (r o : Responses) : Bool :=
  match r.kind with
  | .schnorr => o.kind == .schnorr && r.superEquals o
  | .cce => o.kind == .cce && r.superEquals o
  | .ccd => r.superEquals o

/-- `hashCode` of the abstract class; it counts the response twice and the
challenge not at all. -/
def superHashCode (r : Responses) : Int32 :=
  r.masks.hashCode + BigInteger.intValue r.response + BigInteger.intValue r.response

def hashCode (r : Responses) : Int32 := r.superHashCode + r.kind.hashOffset

theorem superEquals_iff {r o : Responses} : r.superEquals o = true ↔
    o.masks = r.masks ∧ o.response = r.response ∧ o.challenge = r.challenge := by
  obtain ⟨_, ⟨a, b⟩, c, d⟩ := r
  obtain ⟨_, ⟨a', b'⟩, c', d'⟩ := o
  simp [superEquals, Masks.equals, and_assoc]

theorem equals_self (r : Responses) : r.equals r = true := by
  have h : r.superEquals r = true := superEquals_iff.mpr ⟨rfl, rfl, rfl⟩
  cases hk : r.kind <;> simp [equals, hk, h]

end Responses

/-- The map from a response to the key it is checked under: the entries of a
hash map. -/
abbrev ResponseKeys : Type := List (Responses × ElGamalKey)

namespace ResponseKeys

def isEntryOf (r : Responses) (e : Responses × ElGamalKey) : Bool :=
  e.1.hashCode == r.hashCode && r.equals e.1

def get (m : ResponseKeys) (r : Responses) : Option ElGamalKey :=
  (m.find? (isEntryOf r)).map Prod.snd

def put (m : ResponseKeys) (r : Responses) (k : ElGamalKey) : ResponseKeys :=
  if m.any (isEntryOf r) then m.map (fun e => if isEntryOf r e then (e.1, k) else e)
  else m ++ [(r, k)]

theorem isEntryOf_self (r : Responses) (k : ElGamalKey) : isEntryOf r (r, k) = true := by
  rw [isEntryOf, Bool.and_eq_true]
  exact ⟨beq_self_eq_true _, r.equals_self⟩

theorem isEntryOf_iff {r : Responses} {e : Responses × ElGamalKey} :
    isEntryOf r e = true ↔ e.1 = r := by
  constructor
  · intro h
    rw [isEntryOf, Bool.and_eq_true, beq_iff_eq] at h
    obtain ⟨hh, he⟩ := h
    obtain ⟨⟨ko, mo, co, ro⟩, key⟩ := e
    obtain ⟨kr, mr, cr, rr⟩ := r
    have hs : Responses.superEquals ⟨kr, mr, cr, rr⟩ ⟨ko, mo, co, ro⟩ = true := by
      cases kr with
      | schnorr => exact ((Bool.and_eq_true _ _).mp he).2
      | cce => exact ((Bool.and_eq_true _ _).mp he).2
      | ccd => exact he
    obtain ⟨rfl, rfl, rfl⟩ := Responses.superEquals_iff.mp hs
    -- the class constants are distinct, so equal hashes force equal classes
    obtain rfl := ResponsesKind.hashOffset_inj ((Int32.add_right_inj _).mp hh)
    rfl
  · rintro rfl
    exact isEntryOf_self e.1 e.2

/-- **A lookup finds the key that was put last.** -/
theorem get_put_self (m : ResponseKeys) (r : Responses) (k : ElGamalKey) :
    (m.put r k).get r = some k := by
  by_cases h : m.any (isEntryOf r)
  · rw [put, if_pos h, get]
    induction m with
    | nil => simp at h
    | cons e m ih =>
      by_cases he : isEntryOf r e = true
      · have he' : isEntryOf r (e.1, k) = true := he
        rw [List.map_cons, if_pos he, List.find?_cons_of_pos he']
        rfl
      · rw [List.map_cons, if_neg he, List.find?_cons_of_neg he]
        exact ih (by simpa [he] using h)
  · rw [put, if_neg h, get, List.find?_append]
    have : m.find? (isEntryOf r) = none := by
      rw [List.find?_eq_none]
      intro e he hm
      exact h (List.any_eq_true.mpr ⟨e, he, hm⟩)
    rw [this, Option.none_or, List.find?_cons_of_pos (isEntryOf_self r k)]
    rfl

theorem get_put_ne (m : ResponseKeys) {r r' : Responses} (k : ElGamalKey) (h : r' ≠ r) :
    (m.put r k).get r' = m.get r' := by
  have hne : isEntryOf r' (r, k) = false := by
    rw [← Bool.not_eq_true, isEntryOf_iff]
    exact fun e => h e.symm
  rw [put]
  split
  · rw [get, get]
    rename_i hany
    clear hany
    induction m with
    | nil => rfl
    | cons e m ih =>
      rw [List.map_cons]
      by_cases he : isEntryOf r e = true
      · have hf : isEntryOf r' e = false := by
          rw [← Bool.not_eq_true, isEntryOf_iff]
          intro h'
          exact h (h'.symm.trans (isEntryOf_iff.mp he))
        have hf' : isEntryOf r' (e.1, k) = false := hf
        rw [if_pos he, List.find?_cons_of_neg (by simp [hf']), List.find?_cons_of_neg (by simp [hf]),
          ih]
      · rw [if_neg he]
        by_cases hf : isEntryOf r' e = true
        · rw [List.find?_cons_of_pos hf, List.find?_cons_of_pos hf]
        · rw [List.find?_cons_of_neg hf, List.find?_cons_of_neg hf, ih]
  · rw [get, get, List.find?_append, List.find?_cons_of_neg (by simp [hne]), List.find?_nil,
      Option.or_none]

end ResponseKeys

/-! ### Promises and signatures -/

/-- The encrypted identity, with its plaintext. -/
structure ResEncrypt where
  u : ℤ
  v : ℤ
  M : List UInt8
deriving DecidableEq, Repr

structure AndClause where
  resEncrypt : ResEncrypt
  rK : ResponseKeys
  responses : List Responses
deriving DecidableEq, Repr

/-- `a.rK.get(a.responses[0])`. -/
def AndClause.firstKey (and : AndClause) : Option ElGamalKey := and.responses.head?.bind and.rK.get

structure OrClause where
  ands : List AndClause
  a : ℤ
deriving DecidableEq, Repr

structure SigmaSignature where
  pcs : OrClause
  rpcs : Responses
  trentK : ElGamalKey
deriving DecidableEq, Repr

end SXP.Sigma
