import SXP.Crypt.Entities

/-!
# Signing and checking entities

The parser signs the text of the fields that an annotation names, and checks a signature
under the key in the field that it names.  A check that is false makes the entity null.  A
check that throws is logged, and the loop goes on as if it had been true.

`strict_iff` gives the entities on which that makes no difference.
-/

namespace SXP.Crypt

open SXP.Lib SXP.Lib.Java SXP.Lib.BigInteger SXP.Lib.Text SXP.Lib.Date
open ElGamalAsymKeyFactory

def checkKey : FieldValue → Java (Option ℤ)
  | .key k => pure k.publicKey
  | .bigInteger n => pure (some n)
  | _ => throw (.runtime "Check-key must be a BigInteger or ElGamalKey !")

/-- The cast to `ElGamalSignEntity`, and a use of the object. -/
def signEntity : FieldValue → Java ElGamalSignature
  | .signature σ => pure σ
  | .null => throw .nullPointer
  | _ => throw .classCast

/-- The parser of an entity.  The table lists the signed fields in an order of its own. -/
structure CryptoParser where
  entity : Entity
  key : Option ElGamalKey
  fieldsToSign : List (String × CryptSigneAnnotation)
  listed : fieldsToSign.Perm entity.signedFields

variable (hash : List UInt8 → Digest) (z : TimeZone)

def Entity.check (e : Entity) (f : String × CryptSigneAnnotation) : Java Bool := do
  let publicKey ← checkKey (← e.getDeclaredField f.2.checkByKey)
  let σ ← signEntity (← e.getDeclaredField f.1)
  verify hash ⟨publicKey, none⟩ (e.signedBytes z f.2) σ

def checkLoop (e : Entity) : List (String × CryptSigneAnnotation) → Option Entity
  | [] => some e
  | f :: rest =>
      match e.check hash z f with
      | .ok true => checkLoop e rest
      | .ok false => none
      | .error _ => checkLoop e rest

/-- `parseAnnotation(CheckAction)`. -/
def CryptoParser.checkSignature (p : CryptoParser) : Option Entity :=
  checkLoop hash z p.entity p.fieldsToSign

def signLoop (key : Option ElGamalKey) :
    List (String × CryptSigneAnnotation) → (ℕ → Draw) → Entity → Java Entity
  | [], _, e => pure e
  | f :: rest, draws, e => do
      let k ← nonNull key
      let σ ← sign hash ⟨none, k.privateKey⟩ (e.signedBytes z f.2) (draws 0)
      signLoop key rest (fun n => draws (n + 1)) (e.setField f.1 (.signature σ))

/-- `parseAnnotation(SigneAction)`. -/
def CryptoParser.signeFields (p : CryptoParser) (draws : ℕ → Draw) : Java Entity :=
  signLoop hash z p.key p.fieldsToSign draws p.entity

/-! ### One check -/

variable {hash z}

/-- What a check reads: a key and the two numbers of a signature. -/
structure Entity.Reads (e : Entity) (f : String × CryptSigneAnnotation) (y r s : ℤ) : Prop where
  key : e.getDeclaredField f.2.checkByKey = .ok (.bigInteger y) ∨
    ∃ printed, e.getDeclaredField f.2.checkByKey = .ok (.key ⟨some y, printed⟩)
  signature : e.getDeclaredField f.1 = .ok (.signature ⟨some r, some s⟩)

def Entity.Checkable (e : Entity) (f : String × CryptSigneAnnotation) : Prop :=
  ∃ y r s, e.Reads f y r s ∧ (0 ≤ r ∨ Int.gcd y P = 1) ∧ (0 ≤ s ∨ Int.gcd r P = 1)

variable (hash z) in
/-- The equation of the signature holds for the text. -/
def Entity.Balances (e : Entity) (f : String × CryptSigneAnnotation) : Prop :=
  ∃ y r s a b v, e.Reads f y r s ∧ modPow y r P = .ok a ∧ modPow r s P = .ok b ∧
    modPow G (digest hash (e.signedBytes z f.2)) P = .ok v ∧ v = a * b % P

theorem checkKey_eq_ok {value : FieldValue} {y : ℤ} : checkKey value = .ok (some y) ↔
    value = .bigInteger y ∨ ∃ printed, value = .key ⟨some y, printed⟩ := by
  cases value with
  | key k =>
    obtain ⟨publicKey, printed⟩ := k
    simp [checkKey]
  | _ => simp [checkKey]

theorem signEntity_eq_ok {value : FieldValue} {σ : ElGamalSignature} :
    signEntity value = .ok σ ↔ value = .signature σ := by
  cases value <;> simp [signEntity]

theorem reads_iff {e : Entity} {f : String × CryptSigneAnnotation} {y r s : ℤ} :
    e.Reads f y r s ↔
      (e.getDeclaredField f.2.checkByKey >>= checkKey) = .ok (some y) ∧
      (e.getDeclaredField f.1 >>= signEntity) = .ok ⟨some r, some s⟩ := by
  simp only [bind_eq_ok, checkKey_eq_ok, signEntity_eq_ok]
  constructor
  · rintro ⟨hkey, hsign⟩
    refine ⟨?_, _, hsign, rfl⟩
    rcases hkey with hkey | ⟨printed, hkey⟩
    · exact ⟨_, hkey, Or.inl rfl⟩
    · exact ⟨_, hkey, Or.inr ⟨printed, rfl⟩⟩
  · rintro ⟨⟨value, hvalue, hkey⟩, value', hsign, rfl⟩
    refine ⟨?_, hsign⟩
    rcases hkey with rfl | ⟨printed, rfl⟩
    · exact Or.inl hvalue
    · exact Or.inr ⟨printed, hvalue⟩

theorem check_eq (e : Entity) (f : String × CryptSigneAnnotation) : e.check hash z f =
    (e.getDeclaredField f.2.checkByKey >>= checkKey) >>= fun publicKey =>
    (e.getDeclaredField f.1 >>= signEntity) >>= fun σ =>
      verify hash ⟨publicKey, none⟩ (e.signedBytes z f.2) σ := by
  simp only [Entity.check, bind_assoc]

/-- **What a check says**, when it says something. -/
theorem check_eq_ok {e : Entity} {f : String × CryptSigneAnnotation} {accepted : Bool} :
    e.check hash z f = .ok accepted ↔ ∃ y r s a b v, e.Reads f y r s ∧ modPow y r P = .ok a ∧
      modPow r s P = .ok b ∧ modPow G (digest hash (e.signedBytes z f.2)) P = .ok v ∧
      (v == a * b % P) = accepted := by
  simp only [check_eq, bind_eq_ok (α := Option ℤ), bind_eq_ok (α := ElGamalSignature),
    verify_eq_ok, reads_iff]
  constructor
  · rintro ⟨_, hkey, ⟨_, _⟩, hsign, y, r, s, a, b, v, rfl, rfl, rfl, ha, hb, hv, hw⟩
    exact ⟨y, r, s, a, b, v, ⟨hkey, hsign⟩, ha, hb, hv, hw⟩
  · rintro ⟨y, r, s, a, b, v, ⟨hkey, hsign⟩, ha, hb, hv, hw⟩
    exact ⟨_, hkey, _, hsign, y, r, s, a, b, v, rfl, rfl, rfl, ha, hb, hv, hw⟩

/-- **A check says something** if the entity can be checked. -/
theorem check_total (hash : List UInt8 → Digest) (z : TimeZone) {e : Entity}
    {f : String × CryptSigneAnnotation} :
    (∃ accepted, e.check hash z f = .ok accepted) ↔ e.Checkable f := by
  simp only [check_eq, bind_eq_ok (α := Option ℤ), bind_eq_ok (α := ElGamalSignature)]
  constructor
  · rintro ⟨accepted, publicKey, hkey, ⟨_, _⟩, hsign, hverify⟩
    obtain ⟨y, r, s, rfl, rfl, rfl, hry, hsr⟩ := verify_total.mp ⟨accepted, hverify⟩
    exact ⟨y, r, s, reads_iff.mpr ⟨hkey, hsign⟩, hry, hsr⟩
  · rintro ⟨y, r, s, hreads, hry, hsr⟩
    obtain ⟨hkey, hsign⟩ := reads_iff.mp hreads
    obtain ⟨accepted, hverify⟩ : ∃ accepted,
        verify hash ⟨some y, none⟩ (e.signedBytes z f.2) ⟨some r, some s⟩ = .ok accepted :=
      verify_total.mpr ⟨y, r, s, rfl, rfl, rfl, hry, hsr⟩
    exact ⟨accepted, _, hkey, _, hsign, hverify⟩

theorem check_true_iff {e : Entity} {f : String × CryptSigneAnnotation} :
    e.check hash z f = .ok true ↔ e.Balances hash z f := by
  rw [check_eq_ok]
  simp only [beq_iff_eq]
  rfl

theorem check_false_iff {e : Entity} {f : String × CryptSigneAnnotation} :
    e.check hash z f = .ok false ↔ e.Checkable f ∧ ¬ e.Balances hash z f := by
  rw [← check_total hash z, ← check_true_iff]
  cases e.check hash z f with
  | error _ => simp
  | ok accepted => cases accepted <;> simp

/-! ### All checks -/

theorem checkLoop_cases (hash : List UInt8 → Digest) (z : TimeZone) (e : Entity)
    (l : List (String × CryptSigneAnnotation)) :
    checkLoop hash z e l = some e ∧ (∀ f ∈ l, e.check hash z f ≠ .ok false) ∨
    checkLoop hash z e l = none ∧ ∃ f ∈ l, e.check hash z f = .ok false := by
  induction l with
  | nil => exact Or.inl ⟨rfl, fun f hf => absurd hf List.not_mem_nil⟩
  | cons f rest ih =>
    by_cases hcheck : e.check hash z f = .ok false
    · refine Or.inr ⟨?_, f, List.mem_cons_self, hcheck⟩
      rw [checkLoop, hcheck]
    · -- true or logged, the loop goes on
      have hrest : checkLoop hash z e (f :: rest) = checkLoop hash z e rest := by
        rw [checkLoop]
        cases h : e.check hash z f with
        | error _ => rfl
        | ok accepted =>
          cases accepted with
          | true => rfl
          | false => exact absurd h hcheck
      rw [hrest]
      rcases ih with ⟨heq, hall⟩ | ⟨heq, f', hf', hfalse⟩
      · exact Or.inl ⟨heq, List.forall_mem_cons.mpr ⟨hcheck, hall⟩⟩
      · exact Or.inr ⟨heq, f', List.mem_cons_of_mem f hf', hfalse⟩

/-- **An entity is null after the check** if one of its checks was false. -/
theorem CryptoParser.checkSignature_cases (hash : List UInt8 → Digest) (z : TimeZone)
    (p : CryptoParser) :
    p.checkSignature hash z = some p.entity ∧
      (∀ f ∈ p.entity.signedFields, p.entity.check hash z f ≠ .ok false) ∨
    p.checkSignature hash z = none ∧
      ∃ f ∈ p.entity.signedFields, p.entity.check hash z f = .ok false := by
  have h := checkLoop_cases hash z p.entity p.fieldsToSign
  simpa only [CryptoParser.checkSignature, p.listed.mem_iff] using h

variable (hash z) in
/-- The entity comes back if every signature on it was verified, and else null does. -/
def CryptoParser.Strict (p : CryptoParser) : Prop :=
  (p.checkSignature hash z = some p.entity ∧
    ∀ f ∈ p.entity.signedFields, p.entity.check hash z f = .ok true) ∨
  (p.checkSignature hash z = none ∧
    ∃ f ∈ p.entity.signedFields, p.entity.check hash z f ≠ .ok true)

/-- **A check that cannot be completed rejects** in exactly the cases in which there is none, or
in which the equation of another signature fails. -/
theorem CryptoParser.strict_iff (hash : List UInt8 → Digest) (z : TimeZone) (p : CryptoParser) :
    p.Strict hash z ↔ (∀ f ∈ p.entity.signedFields, p.entity.Checkable f) ∨
      ∃ f ∈ p.entity.signedFields, p.entity.Checkable f ∧ ¬ p.entity.Balances hash z f := by
  simp only [← check_false_iff]
  simp only [← check_total hash z]
  rcases p.checkSignature_cases hash z with ⟨heq, hall⟩ | ⟨heq, f, hf, hfalse⟩
  · constructor
    · rintro (⟨-, htrue⟩ | ⟨hnone, -⟩)
      · exact Or.inl fun f hf => ⟨true, htrue f hf⟩
      · rw [heq] at hnone
        exact absurd hnone (by simp)
    · rintro (htotal | ⟨f, hf, hfalse⟩)
      · refine Or.inl ⟨heq, fun f hf => ?_⟩
        obtain ⟨accepted, haccepted⟩ := htotal f hf
        cases accepted with
        | true => exact haccepted
        | false => exact absurd haccepted (hall f hf)
      · exact absurd hfalse (hall f hf)
  · refine iff_of_true (Or.inr ⟨heq, f, hf, ?_⟩) (Or.inr ⟨f, hf, hfalse⟩)
    rw [hfalse]
    simp

/-! ### An item without a signature -/

def sampleItem : Item where
  title := some "bike"
  description := some "almost new"
  createdAt := some 0
  pbkey := some 5
  username := some "ann"
  userid := some "1"
  signature := none

def Item.parser (i : Item) (key : Option ElGamalKey) : CryptoParser :=
  ⟨i.entity, key, _, List.Perm.refl _⟩

/-- The item comes back, though there was no signature to verify. -/
theorem unsigned_item_accepted :
    (sampleItem.parser none).checkSignature sha256 .utc = some sampleItem.entity ∧
    sampleItem.entity.check sha256 .utc ("signature", Item.annotation) =
      .error .nullPointer ∧
    ¬ (sampleItem.parser none).Strict sha256 .utc := by
  have hcheck : sampleItem.entity.check sha256 .utc ("signature", Item.annotation) =
      .error .nullPointer := rfl
  have hfields : sampleItem.entity.signedFields = [("signature", Item.annotation)] := rfl
  have hreturned : (sampleItem.parser none).checkSignature sha256 .utc =
      some sampleItem.entity := by
    change checkLoop sha256 .utc sampleItem.entity [("signature", Item.annotation)] = _
    rw [checkLoop, hcheck]
    rfl
  refine ⟨hreturned, hcheck, ?_⟩
  rintro (⟨-, htrue⟩ | ⟨hnone, -⟩)
  · have htrue := htrue ("signature", Item.annotation) (by rw [Item.parser, hfields]; simp)
    rw [Item.parser, hcheck] at htrue
    exact absurd htrue (by simp)
  · rw [hreturned] at hnone
    exact absurd hnone (by simp)

end SXP.Crypt
