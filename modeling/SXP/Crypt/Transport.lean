import SXP.Crypt.SignedFields

/-!
# Signatures and the wire

An item or a message is signed at one peer, written and read as JSON, and checked at another.
The signed text has what the date prints, to the second and in the default zone of the peer.
The wire has the fields of a pattern, in a zone of its own.

`transport_iff` gives the items and messages whose signature is accepted at the other peer.
With all zones the same, that is every message, and every item of the first second of a day
(`message_alike_utc`, `item_alike_utc`).
-/

namespace SXP.Crypt

open SXP.Lib SXP.Lib.Java SXP.Lib.BigInteger SXP.Lib.Text SXP.Lib.Date
open ElGamalAsymKeyFactory FieldValue

/-! ### The wire -/

/-- What is read back of a field: of a date, what its pattern writes. -/
def Field.overWire (wire : TimeZone) (f : Field) : Field :=
  match f.jsonFormat, f.value with
  | some p, .date t => { f with value := .date (reread p wire t) }
  | _, _ => f

def Entity.overWire (wire : TimeZone) (e : Entity) : Entity :=
  ⟨e.fields.map (Field.overWire wire)⟩

/-! ### Items and messages -/

inductive Shared where
  | item (i : Item)
  | message (m : Message)

namespace Shared

def entity : Shared → Entity
  | item i => i.entity
  | message m => m.entity

def annotation : Shared → CryptSigneAnnotation
  | item _ => Item.annotation
  | message _ => Message.annotation

def date : Shared → Option ℤ
  | item i => i.createdAt
  | message m => m.sendingDate

def pattern : Shared → Pattern
  | item _ => .day
  | message _ => .second

def pbkey : Shared → Option ℤ
  | item i => i.pbkey
  | message m => m.pbkey

def parser (d : Shared) (key : Option ElGamalKey) : CryptoParser :=
  ⟨d.entity, key, _, List.Perm.refl _⟩

def dated (d : Shared) (t : Option ℤ) : Shared :=
  match d with
  | item i => item { i with createdAt := t }
  | message m => message { m with sendingDate := t }

def signed (d : Shared) (σ : ElGamalSignature) : Shared :=
  match d with
  | item i => item { i with signature := some σ }
  | message m => message { m with signature := some σ }

def received (d : Shared) (wire : TimeZone) : Option ℤ := d.date.map (reread d.pattern wire)

theorem signedFields_entity (d : Shared) :
    d.entity.signedFields = [("signature", d.annotation)] := by
  cases d <;> rfl

theorem setField_entity (d : Shared) (σ : ElGamalSignature) :
    d.entity.setField "signature" (.signature σ) = (d.signed σ).entity := by
  cases d <;> rfl

/-- **Only the date is another one** after the way over the wire. -/
theorem overWire_entity (d : Shared) (wire : TimeZone) :
    d.entity.overWire wire = (d.dated (d.received wire)).entity := by
  cases d with
  | item i =>
    obtain ⟨title, description, createdAt, pbkey, username, userid, signature⟩ := i
    cases createdAt <;> rfl
  | message m =>
    obtain ⟨sendingDate, senderId, senderName, receiverId, receiverName, messageContent, pbkey,
      signature⟩ := m
    cases sendingDate <;> rfl

/-- The signed text, and the one that is checked, differ in the date. -/
theorem text_entity_iff (d : Shared) (here there : TimeZone) (t : Option ℤ) :
    (d.dated t).entity.signedText there d.annotation = d.entity.signedText here d.annotation ↔
      (FieldValue.of .date t).text there = (FieldValue.of .date d.date).text here := by
  cases d with
  | item i =>
    refine (congrArg₂ (· = ·) ((Item.values _).signedText there)
      ((Item.values i).signedText here)).to_iff.trans ?_
    refine join_text_iff [_, _] [_, _, _] ?_ ?_
    · simp [zoneFree_string]
    · simp [zoneFree_string, zoneFree_bigInteger]
  | message m =>
    refine (congrArg₂ (· = ·) ((Message.values _).signedText there)
      ((Message.values m).signedText here)).to_iff.trans ?_
    refine join_text_iff [] [_, _, _, _, _, _] ?_ ?_
    · simp
    · simp [zoneFree_string, zoneFree_bigInteger]

/-! ### Dates that print alike -/

def PrintsAlike (d : Shared) (here wire there : TimeZone) : Prop :=
  (d.received wire).map (printed there) = d.date.map (printed here)

theorem text_date_iff {z z' : TimeZone} {t t' : Option ℤ} :
    (FieldValue.of .date t).text z = (FieldValue.of .date t').text z' ↔
      t.map (printed z) = t'.map (printed z') := by
  rcases t with _ | t <;> rcases t' with _ | t'
  · exact iff_of_true rfl rfl
  · exact iff_of_false (toString_ne_null z' t').symm (by simp)
  · exact iff_of_false (toString_ne_null z t) (by simp)
  · exact toString_inj.trans (Option.some.injEq _ _ ▸ Iff.rfl)

/-- **The same text is checked** if the date prints alike. -/
theorem printsAlike_iff (d : Shared) (here wire there : TimeZone) :
    d.PrintsAlike here wire there ↔
      (d.dated (d.received wire)).entity.signedText there d.annotation =
        d.entity.signedText here d.annotation := by
  rw [text_entity_iff, text_date_iff, PrintsAlike]

/-- From the year 1 on, the seconds and the names of the zones are compared. -/
theorem alike_iff {d : Shared} {here wire there : TimeZone} {t : ℤ} (hdate : d.date = some t)
    (hsent : firstDay ≤ here.localTime t / 86400000)
    (hread : firstDay ≤ there.localTime (reread d.pattern wire t) / 86400000) :
    d.PrintsAlike here wire there ↔
      there.localTime (reread d.pattern wire t) / 1000 = here.localTime t / 1000 ∧
        there.shortName (reread d.pattern wire t) = here.shortName t := by
  rw [PrintsAlike, received, hdate, Option.map_some, Option.map_some, Option.map_some,
    Option.some.injEq, printed, printed, Prod.mk.injEq, fields_inj hread hsent]

theorem localTime_utc (t : ℤ) : TimeZone.utc.localTime t = t := add_zero t

theorem reread_utc {t : ℤ} (hsent : firstDay ≤ t / 86400000) (p : Pattern) :
    reread p .utc t = match p with
      | .day => t / 86400000 * 86400000
      | .second => t / 1000 * 1000 := by
  rw [reread_eq (by rwa [localTime_utc]), localTime_utc]
  exact sub_zero _

/-- With all zones the same, the signature of an item survives in the first second of a day. -/
theorem item_alike_utc {i : Item} {t : ℤ} (hdate : i.createdAt = some t)
    (hsent : firstDay ≤ t / 86400000) :
    (item i).PrintsAlike .utc .utc .utc ↔ t % 86400000 < 1000 := by
  have hread : reread (item i).pattern .utc t = t / 86400000 * 86400000 := reread_utc hsent .day
  rw [alike_iff (d := item i) hdate (by rwa [localTime_utc])
    (by rw [hread, localTime_utc]; omega), hread, localTime_utc, localTime_utc]
  refine (and_iff_left rfl).trans ?_
  omega

/-- With all zones the same, the signature of a message survives. -/
theorem message_alike_utc {m : Message} {t : ℤ} (hdate : m.sendingDate = some t)
    (hsent : firstDay ≤ t / 86400000) : (message m).PrintsAlike .utc .utc .utc := by
  have hread : reread (message m).pattern .utc t = t / 1000 * 1000 := reread_utc hsent .second
  rw [alike_iff (d := message m) hdate (by rwa [localTime_utc])
    (by rw [hread, localTime_utc]; omega), hread, localTime_utc, localTime_utc]
  refine ⟨?_, rfl⟩
  omega

/-- The texts are different, but their digests are exponents with one power. -/
def Collides (hash : List UInt8 → Digest) (d : Shared) (here wire there : TimeZone) : Prop :=
  ¬ d.PrintsAlike here wire there ∧
    modPow G (digest hash ((d.dated (d.received wire)).entity.signedBytes there d.annotation)) P =
      modPow G (digest hash (d.entity.signedBytes here d.annotation)) P

end Shared

/-! ### Signed and received -/

structure KeyPair where
  x : ℤ
  y : ℤ
  fits : HasPublicKey x y

def KeyPair.key (k : KeyPair) : ElGamalKey := ⟨some k.y, some k.x⟩

namespace Shared

variable {hash : List UInt8 → Digest} {here wire there : TimeZone} {d : Shared} {k : KeyPair}
  {draws : ℕ → Draw}

theorem signeFields_eq (d : Shared) : (d.parser (some k.key)).signeFields hash here draws =
    (sign hash ⟨none, some k.x⟩ (d.entity.signedBytes here d.annotation) (draws 0)).map
      fun σ => (d.signed σ).entity := by
  change signLoop hash here (some k.key) d.entity.signedFields draws d.entity = _
  rw [signedFields_entity, signLoop]
  change (sign hash ⟨none, some k.x⟩ (d.entity.signedBytes here d.annotation) (draws 0) >>=
    fun σ => pure (d.entity.setField "signature" (.signature σ))) = _
  simp only [setField_entity]
  cases sign hash ⟨none, some k.x⟩ (d.entity.signedBytes here d.annotation) (draws 0) <;> rfl

/-- A check of what was signed and received, with the key of the signer. -/
theorem check_received (hkey : d.pbkey = some k.y) (σ : ElGamalSignature) :
    ((d.signed σ).entity.overWire wire).check hash there ("signature", d.annotation) =
      verify hash ⟨some k.y, none⟩
        ((d.dated (d.received wire)).entity.signedBytes there d.annotation) σ := by
  rw [overWire_entity]
  cases d with
  | item i =>
    obtain ⟨title, description, createdAt, pbkey, username, userid, signature⟩ := i
    obtain rfl : pbkey = some k.y := hkey
    rfl
  | message m =>
    obtain ⟨sendingDate, senderId, senderName, receiverId, receiverName, messageContent, pbkey,
      signature⟩ := m
    obtain rfl : pbkey = some k.y := hkey
    rfl

theorem signs_iff (hash : List UInt8 → Digest) (here : TimeZone) (k : KeyPair) (draws : ℕ → Draw)
    (d : Shared) : (∃ e, (d.parser (some k.key)).signeFields hash here draws = .ok e) ↔
      Int.gcd (draws 0).val ((P : ℤ) - 1) = 1 := by
  rw [signeFields_eq, ← sign_total hash k.x (d.entity.signedBytes here d.annotation)]
  cases sign hash ⟨none, some k.x⟩ (d.entity.signedBytes here d.annotation) (draws 0) <;>
    simp [Except.map]

/-- **What the receiver accepts**: a text whose digest is an exponent with the same power. -/
theorem accepted_iff (hkey : d.pbkey = some k.y) {e : Entity}
    (hsigned : (d.parser (some k.key)).signeFields hash here draws = .ok e) {p : CryptoParser}
    (hp : p.entity = e.overWire wire) :
    p.checkSignature hash there = some p.entity ↔
      modPow G (digest hash ((d.dated (d.received wire)).entity.signedBytes there d.annotation)) P =
        modPow G (digest hash (d.entity.signedBytes here d.annotation)) P := by
  obtain ⟨σ, hσ, rfl⟩ : ∃ σ, sign hash ⟨none, some k.x⟩ (d.entity.signedBytes here d.annotation)
      (draws 0) = .ok σ ∧ (d.signed σ).entity = e := by
    rw [signeFields_eq] at hsigned
    cases hσ : sign hash ⟨none, some k.x⟩ (d.entity.signedBytes here d.annotation) (draws 0) with
    | error _ =>
      rw [hσ] at hsigned
      cases hsigned
    | ok σ =>
      rw [hσ] at hsigned
      exact ⟨σ, rfl, Except.ok.inj hsigned⟩
  have hfields : p.entity.signedFields = [("signature", d.annotation)] := by
    rw [hp, overWire_entity, signedFields_entity]
    cases d <;> rfl
  have hcheck : p.entity.check hash there ("signature", d.annotation) = .ok (decide
      (modPow G (digest hash
        ((d.dated (d.received wire)).entity.signedBytes there d.annotation)) P =
      modPow G (digest hash (d.entity.signedBytes here d.annotation)) P)) :=
    hp ▸ (check_received hkey σ).trans (verify_sign k.fits hσ)
  rcases p.checkSignature_cases hash there with ⟨heq, hall⟩ | ⟨heq, f, hf, hfalse⟩
  · -- no check was false, and this one says something
    refine iff_of_true heq (by_contra fun hne => hall ("signature", d.annotation) ?_ ?_)
    · rw [hfields]
      exact List.mem_singleton_self _
    · rw [hcheck, decide_eq_false hne]
  · refine iff_of_false (fun hsome => absurd (heq.symm.trans hsome) (by simp)) fun hsame => ?_
    rw [hfields, List.mem_singleton] at hf
    rw [hf, hcheck, decide_eq_true hsame] at hfalse
    exact absurd hfalse (by simp)

/-- **A signature survives the wire** for exactly the items and messages whose date, as it is read
back, prints in the zone of the receiver as it did in the zone of the signer, unless the digests of
the two texts collide as exponents. -/
theorem transport_iff (hkey : d.pbkey = some k.y) {e : Entity}
    (hsigned : (d.parser (some k.key)).signeFields hash here draws = .ok e) {p : CryptoParser}
    (hp : p.entity = e.overWire wire) :
    p.checkSignature hash there = some p.entity ↔
      d.PrintsAlike here wire there ∨ d.Collides hash here wire there := by
  rw [accepted_iff hkey hsigned hp]
  constructor
  · exact fun hsame => or_iff_not_imp_left.mpr fun halike => ⟨halike, hsame⟩
  · rintro (halike | ⟨-, hsame⟩)
    · rw [Entity.signedBytes, Entity.signedBytes, (printsAlike_iff d here wire there).mp halike]
    · exact hsame

end Shared

/-! ### An item of midnight, and one of a second later -/

def sampleKey : KeyPair := ⟨2, (G * G % P : ℕ), by unfold HasPublicKey; decide +kernel⟩

def sampleDraw : Draw := ⟨2 ^ 1022 + 1443, by decide +kernel⟩

theorem sampleDraw_gcd : Int.gcd sampleDraw.val ((P : ℤ) - 1) = 1 := by decide +kernel

def datedItem (t : ℤ) : Item := { sampleItem with createdAt := some t, pbkey := some sampleKey.y }

theorem datedItem_signedBytes (t : ℤ) :
    (datedItem t).entity.signedBytes .utc Item.annotation =
      getBytes ("bike" ++ ("almost new" ++ (Date.toString .utc t ++ ("ann" ++ "1")))) ++
        (Nat.toDigits 10 sampleKey.y.toNat).flatMap String.utf8EncodeChar := by
  rw [Entity.signedBytes, (Item.values _).signedText, ← decimal_toList (by decide +kernel)]
  change _ = _ ++ getBytes (decimal sampleKey.y)
  rw [← getBytes_append]
  change getBytes (String.join ["bike", "almost new", Date.toString .utc t, "ann", "1",
    decimal sampleKey.y]) = _
  simp only [String.join_cons, String.join_nil, String.append_empty, String.append_assoc]

theorem Shared.transport_sample : ∃ e,
    ((Shared.item (datedItem 0)).parser (some sampleKey.key)).signeFields sha256 .utc
      (fun _ => sampleDraw) = .ok e ∧
    ∀ p : CryptoParser, p.entity = e.overWire .utc →
      p.checkSignature sha256 .utc = some p.entity := by
  obtain ⟨e, he⟩ := (Shared.signs_iff sha256 .utc sampleKey (fun _ => sampleDraw)
    (.item (datedItem 0))).mpr sampleDraw_gcd
  refine ⟨e, he, fun p hp => (Shared.transport_iff rfl he hp).mpr (Or.inl ?_)⟩
  exact (Shared.item_alike_utc (i := datedItem 0) rfl (by decide)).mpr (by decide)

/-- One second later it does not: the digests are no exponents with one power. -/
theorem Shared.late_item_rejected : ∃ e,
    ((Shared.item (datedItem 1000)).parser (some sampleKey.key)).signeFields sha256 .utc
      (fun _ => sampleDraw) = .ok e ∧
    ∀ p : CryptoParser, p.entity = e.overWire .utc → p.checkSignature sha256 .utc = none := by
  obtain ⟨e, he⟩ := (Shared.signs_iff sha256 .utc sampleKey (fun _ => sampleDraw)
    (.item (datedItem 1000))).mpr sampleDraw_gcd
  refine ⟨e, he, fun p hp => ?_⟩
  rcases p.checkSignature_cases sha256 .utc with ⟨heq, -⟩ | ⟨heq, -⟩
  · have hpower := (Shared.accepted_iff rfl he hp).mp heq
    change modPow G (digest sha256 ((datedItem 0).entity.signedBytes .utc Item.annotation)) P =
      modPow G (digest sha256 ((datedItem 1000).entity.signedBytes .utc Item.annotation)) P
      at hpower
    rw [datedItem_signedBytes, datedItem_signedBytes] at hpower
    exact absurd hpower (by decide +kernel)
  · exact heq

end SXP.Crypt
