import SXP.Crypt.CryptoParser
import SXP.Crypt.Encrypters

/-!
# Encrypting and decrypting fields

The parser encrypts the fields that an annotation names, for its own key and for a second key that
another field has.  A missing field is logged, other exceptions end the action.
-/

namespace SXP.Crypt

open SXP.Lib SXP.Lib.Java SXP.Lib.Text SXP.Lib.Date
open ElGamalAsymKeyFactory ElGamalSerpentEncrypter

structure CryptCryptAnnotation where
  secondKey : String := "pbkey"
  isCryptBySecondKey : Bool := false
deriving DecidableEq, Repr

def factoryKey (publicKey : ℤ) : Sigma.ElGamalKey := ⟨publicKey, P, G, none⟩

def secondKey (e : Entity) (name : String) : Java Sigma.ElGamalKey := do
  match ← e.getDeclaredField name with
  | .bigInteger n => pure (factoryKey n)
  | _ => throw (.runtime "Check-key must be a BigInteger!")

variable (c : Ciphers) (z : TimeZone) (key : Option Sigma.ElGamalKey)

/-- One round; no field of bytes is annotated. -/
def cryptField (f : String × CryptCryptAnnotation) (d : Drawn c) (e : Entity) : Java Entity := do
  let valueOfField := (← e.getDeclaredField f.1).text z
  let text ← if f.2.isCryptBySecondKey then do
      let elgamalkey ← secondKey e f.2.secondKey
      encryptMsgSecond c key elgamalkey d (getBytes valueOfField)
    else encryptMsg c key d (getBytes valueOfField)
  return e.setField f.1 (.string (newString (getBytes text)))

def decryptField (f : String × CryptCryptAnnotation) (e : Entity) : Java Entity := do
  let valueOfField := (← e.getDeclaredField f.1).text z
  let data ← if f.2.isCryptBySecondKey then do
      let elgamalkey ← secondKey e f.2.secondKey
      decryptMsgSecond c key elgamalkey (newString (getBytes valueOfField))
    else decryptMsg c key (newString (getBytes valueOfField))
  return e.setField f.1 (.string (newString data))

/-- The round that throws for a missing field changes nothing. -/
def logged (round : Entity → Java Entity) (e : Entity) : Java Entity :=
  match round e with
  | .error .noSuchField => pure e
  | result => result

/-- `parseAnnotation(CryptAction)`. -/
def cryptFields (fieldsToCrypt : List (String × CryptCryptAnnotation)) (draws : ℕ → Drawn c)
    (e : Entity) : Java Entity :=
  fieldsToCrypt.zipIdx.foldlM (fun e f => logged (cryptField c z key f.1 (draws f.2)) e) e

/-- `parseAnnotation(DecryptAction)`. -/
def decryptFields (fieldsToCrypt : List (String × CryptCryptAnnotation)) (e : Entity) :
    Java Entity :=
  fieldsToCrypt.foldlM (fun e f => logged (decryptField c z key f) e) e

def Message.fieldsToCrypt : List (String × CryptCryptAnnotation) :=
  [("messageContent", { secondKey := "pbkey", isCryptBySecondKey := true })]

/-! ### Messages -/

section

variable {c z key}

theorem logged_ok {round : Entity → Java Entity} {e e' : Entity} (h : round e = .ok e') :
    logged round e = .ok e' := by
  rw [logged, h]

theorem logged_error {round : Entity → Java Entity} {e : Entity} {x : JavaException}
    (h : round e = .error x) (hx : x ≠ .noSuchField) : logged round e = .error x := by
  unfold logged
  split
  · next hround =>
    rw [h] at hround
    exact absurd (Except.error.inj hround) hx
  · exact h

/-- The content of a message is encrypted for two keys. -/
theorem Message.cryptFields_eq {m : Message} {content text : String} {y : ℤ} {draws : ℕ → Drawn c}
    (hcontent : m.messageContent = some content) (hkey : m.pbkey = some y)
    (h : encryptMsgSecond c key (factoryKey y) (draws 0) (getBytes content) = .ok text) :
    cryptFields c z key Message.fieldsToCrypt draws m.entity =
      .ok { m with messageContent := some text }.entity := by
  obtain ⟨sendingDate, senderId, senderName, receiverId, receiverName, messageContent, pbkey,
    signature⟩ := m
  obtain rfl : messageContent = some content := hcontent
  obtain rfl : pbkey = some y := hkey
  refine (bind_pure _).trans (logged_ok ?_)
  change (encryptMsgSecond c key (factoryKey y) (draws 0) (getBytes content) >>= fun text => _) = _
  rw [h, ok_bind, newString_getBytes]
  rfl

theorem Message.decryptFields_eq {m : Message} {content text : String} {y : ℤ}
    (hcontent : m.messageContent = some text) (hkey : m.pbkey = some y)
    (h : decryptMsgSecond c key (factoryKey y) text = .ok (getBytes content)) :
    decryptFields c z key Message.fieldsToCrypt m.entity =
      .ok { m with messageContent := some content }.entity := by
  obtain ⟨sendingDate, senderId, senderName, receiverId, receiverName, messageContent, pbkey,
    signature⟩ := m
  obtain rfl : messageContent = some text := hcontent
  obtain rfl : pbkey = some y := hkey
  refine (bind_pure _).trans (logged_ok ?_)
  change (decryptMsgSecond c key (factoryKey y) (newString (getBytes text)) >>= fun data => _) = _
  rw [newString_getBytes, h, ok_bind, newString_getBytes]
  rfl

theorem Message.decryptFields_error {m : Message} {text : String} {y : ℤ}
    (hcontent : m.messageContent = some text) (hkey : m.pbkey = some y) {e : JavaException}
    (he : e ≠ .noSuchField) (h : decryptMsgSecond c key (factoryKey y) text = .error e) :
    decryptFields c z key Message.fieldsToCrypt m.entity = .error e := by
  obtain ⟨sendingDate, senderId, senderName, receiverId, receiverName, messageContent, pbkey,
    signature⟩ := m
  obtain rfl : messageContent = some text := hcontent
  obtain rfl : pbkey = some y := hkey
  refine (bind_pure _).trans (logged_error ?_ he)
  change (decryptMsgSecond c key (factoryKey y) (newString (getBytes text)) >>= fun data => _) = _
  rw [newString_getBytes, h, error_bind]

end

end SXP.Crypt
