import SXP.Crypt.CryptFields
import SXP.Crypt.Transport
import SXP.Lib.Base64

/-!
# Encrypted messages

A message is signed with the key of the sender and encrypted for the receiver and for the key in the
field `pbkey`.  It is read with the key of either.

The second key is one of the factory, and so are the keys of signatures: what is said here is about
users whose keys are over the parameters of the factory (`message_readable`).
-/

namespace SXP.Controller

open SXP.Lib SXP.Lib.Java SXP.Lib.BigInteger SXP.Lib.Date SXP.Crypt
open SXP.Crypt.ElGamalAsymKeyFactory SXP.Crypt.ElGamalSerpentEncrypter

namespace CryptoMessageManagerDecorator

variable (c : Ciphers) (hash : List UInt8 → Digest) (z : TimeZone)

def signerKey (k : Sigma.ElGamalKey) : Crypt.ElGamalKey := ⟨some k.publicKey, k.privateKey⟩

/-- What is handed to the decorated manager. -/
def persist (userSender user : Option Sigma.ElGamalKey) (draws : ℕ → Draw) (crypts : ℕ → Drawn c)
    (m : Message) : Java Entity := do
  let entity ← ((Shared.message m).parser (userSender.map signerKey)).signeFields hash z draws
  cryptFields c z user Message.fieldsToCrypt crypts entity

/-- `DecryptAction`, and `CheckAction` without a key. -/
def read (user : Option Sigma.ElGamalKey) (message : Entity) : Java (Option Entity) := do
  let message ← decryptFields c z user Message.fieldsToCrypt message
  return CryptoParser.checkSignature hash z ⟨message, none, message.signedFields, List.Perm.refl _⟩

/-! ### Messages that were signed -/

section

variable {c hash z}

theorem signedFields_message (m : Message) :
    m.entity.signedFields = [("signature", Message.annotation)] :=
  Shared.signedFields_entity (.message m)

theorem checkSignature_of_signed {m : Message} {k : KeyPair} {draw : Draw} {σ : ElGamalSignature}
    (hkey : m.pbkey = some k.y)
    (hσ : sign hash ⟨none, some k.x⟩ (m.entity.signedBytes z Message.annotation) draw = .ok σ)
    {p : CryptoParser} (hp : p.entity = { m with signature := some σ }.entity) :
    p.checkSignature hash z = some p.entity := by
  have hverify : verify hash ⟨some k.y, none⟩ (m.entity.signedBytes z Message.annotation) σ =
      .ok true := (verify_sign k.fits hσ).trans (congrArg Except.ok (decide_eq_true rfl))
  rcases p.checkSignature_cases hash z with ⟨heq, -⟩ | ⟨-, f, hf, hfalse⟩
  · exact heq
  · rw [hp, signedFields_message, List.mem_singleton] at hf
    rw [hf, hp] at hfalse
    -- the signature is not among the fields that are signed
    obtain ⟨sendingDate, senderId, senderName, receiverId, receiverName, messageContent, pbkey,
      signature⟩ := m
    obtain rfl : pbkey = some k.y := hkey
    exact absurd (hverify.symm.trans hfalse) (by simp)

/-- What is stored: the message with a signature and an encrypted content. -/
theorem persist_eq {sender receiver : Sigma.ElGamalKey} {draws : ℕ → Draw} {crypts : ℕ → Drawn c}
    {m : Message} {content text : String} {x y : ℤ} {σ : ElGamalSignature}
    (hcontent : m.messageContent = some content) (hkey : m.pbkey = some y)
    (hx : sender.privateKey = some x)
    (hσ : sign hash ⟨none, some x⟩ (m.entity.signedBytes z Message.annotation) (draws 0) = .ok σ)
    (htext : encryptMsgSecond c (some receiver) (factoryKey y) (crypts 0) (Text.getBytes content) =
      .ok text) :
    persist c hash z (some sender) (some receiver) draws crypts m =
      .ok { m with signature := some σ, messageContent := some text }.entity := by
  have hsigned : ((Shared.message m).parser (some (signerKey sender))).signeFields hash z draws =
      .ok { m with signature := some σ }.entity := by
    change signLoop hash z _ (Shared.message m).entity.signedFields draws m.entity = _
    rw [Shared.signedFields_entity, signLoop]
    change (sign hash ⟨none, sender.privateKey⟩ (m.entity.signedBytes z Message.annotation)
      (draws 0) >>= _) = _
    rw [hx, hσ]
    exact congrArg Except.ok ((Shared.message m).setField_entity σ)
  change (((Shared.message m).parser (some (signerKey sender))).signeFields hash z draws >>= _) = _
  rw [hsigned, ok_bind]
  exact Message.cryptFields_eq (z := z) (m := { m with signature := some σ }) hcontent hkey htext

end

/-! ### Both ends -/

/-- What is stored comes back, signed and with its content, for the receiver and for the sender. -/
def Readable (sender receiver : Sigma.ElGamalKey) (draws : ℕ → Draw) (crypts : ℕ → Drawn c)
    (m : Message) : Prop :=
  ∃ stored σ, persist c hash z (some sender) (some receiver) draws crypts m = .ok stored ∧
    ∀ reader, reader = receiver ∨ reader = sender →
      read c hash z (some reader) stored = .ok (some { m with signature := some σ }.entity)

def factoryPair (k : KeyPair) : Sigma.ElGamalKey := ⟨k.y, P, G, some k.x⟩

variable {c}

/-- **A message is readable and authentic for both ends**, with keys of the factory. -/
theorem message_readable (hc : Sound c P G) (sender receiver : KeyPair) {draws : ℕ → Draw}
    (hdraw : Int.gcd (draws 0).val ((P : ℤ) - 1) = 1) (crypts : ℕ → Drawn c) {m : Message}
    {content : String} (hcontent : m.messageContent = some content)
    (hkey : m.pbkey = some sender.y) :
    Readable c hash z (factoryPair sender) (factoryPair receiver) draws crypts m := by
  obtain ⟨σ, hσ⟩ := (sign_total hash sender.x (m.entity.signedBytes z Message.annotation)).mpr hdraw
  have hlarge : (256 : ℤ) ^ 20 ≤ P := by decide +kernel
  obtain ⟨text, htext, hreads⟩ := decryptMsgSecond_of_encrypted hc hlarge
    (factoryPair receiver) (factoryKey sender.y) ⟨rfl, rfl⟩ ⟨rfl, rfl⟩ receiver.fits sender.fits
    (crypts 0) (Text.getBytes content)
  refine ⟨_, σ, persist_eq hcontent hkey rfl hσ htext, fun reader hreader => ?_⟩
  have hread : decryptMsgSecond c (some reader) (factoryKey sender.y) text =
      .ok (Text.getBytes content) := by
    rcases hreader with rfl | rfl
    · exact hreads receiver.x receiver.y receiver.fits (Or.inl rfl)
    · exact hreads sender.x sender.y sender.fits (Or.inr rfl)
  have hdecrypt := Message.decryptFields_eq (z := z)
    (m := { m with signature := some σ, messageContent := some text }) rfl hkey hread
  have hm : { m with signature := some σ, messageContent := some content } =
      { m with signature := some σ } := by
    rw [← hcontent]
  let p : CryptoParser :=
    ⟨{ m with signature := some σ, messageContent := some content }.entity, none, _,
      List.Perm.refl _⟩
  have hcheck := checkSignature_of_signed (p := p) hkey hσ (congrArg Message.entity hm)
  unfold read
  rw [hdecrypt, ok_bind, pure_eq]
  change Except.ok (p.checkSignature hash z) = _
  rw [hcheck]
  exact congrArg (fun m' : Message => Except.ok (some m'.entity)) hm

/-! ### A message of one block -/

/-- The text `hello` as a block, and its code under the password of twenty letters `A`. -/
def helloBlock : Block := Chaining.getBlock 0 16 0 (Text.getBytes "hello")

def helloCode : Block := fun i =>
  [0x8D, 0xF8, 0x60, 0xFD, 0x59, 0x88, 0xD0, 0x1B, 0xB9, 0xA2, 0x38, 0x59, 0xCB, 0x6C, 0x9F, 0x91].get i

/-- The cipher as far as it is known for that password. -/
def sampleSerpent : Serpent where
  Key := Unit
  makeKey _ := some ()
  blockEncrypt _ := Equiv.swap helloBlock helloCode
  blockDecrypt _ := Equiv.swap helloBlock helloCode

theorem sampleSerpent_inverse (k : sampleSerpent.Key) :
    Function.LeftInverse (sampleSerpent.blockDecrypt k) (sampleSerpent.blockEncrypt k) :=
  DFunLike.congr_fun (Equiv.swap_swap helloBlock helloCode)

def sampleCiphers : Ciphers where
  engine := ElGamalEngineK.engine
  serpent := sampleSerpent
  json := ⟨fun content => String.ofList (Base64.toJson content),
    fun text => Base64.toEntity text.toList⟩

theorem sampleCiphers_sound {p g : ℤ} (h : ElGamalEngineK.engine.RoundTrips p g) :
    Sound sampleCiphers p g where
  engine := h
  serpent _ _ := ⟨(), rfl, sampleSerpent_inverse ()⟩
  json content := by
    change Base64.toEntity (String.ofList (Base64.toJson content)).toList = _
    rw [String.toList_ofList]
    exact Base64.toEntity_toJson content

theorem factory_roundTrips : ElGamalEngineK.engine.RoundTrips P G :=
  ElGamalEngineK.roundTrips_of_powMod one_lt_P powMod_G

def sampleDrawn : Drawn sampleCiphers where
  pwd := ⟨List.replicate 20 'A', List.length_replicate,
    fun ch hch => (List.eq_of_mem_replicate hch) ▸ (by decide : 'A' ∈ characters)⟩
  first := (7 : ℕ)
  second := (8 : ℕ)
  initVector := fun _ => 0

def sampleReceiver : KeyPair :=
  ⟨3, (G * G % P * G % P : ℕ), by unfold HasPublicKey; decide +kernel⟩

def helloMessage (pbkey : ℤ) : Message :=
  { sampleMessage with messageContent := some "hello", pbkey := some pbkey }

/-- The content is enciphered as that block. -/
example : SerpentEncrypter.encrypt sampleSerpent (sampleSerpent.makeKey sampleDrawn.pwd.getBytes)
    sampleDrawn.initVector (Text.getBytes "hello") =
      .ok (List.replicate 16 0 ++ List.ofFn helloCode ++ [11]) := by decide +kernel

theorem message_readable_sample :
    Sound sampleCiphers P G ∧ Int.gcd sampleDraw.val ((P : ℤ) - 1) = 1 ∧
    Readable sampleCiphers sha256 .utc (factoryPair sampleKey) (factoryPair sampleReceiver)
      (fun _ => sampleDraw) (fun _ => sampleDrawn) (helloMessage sampleKey.y) :=
  ⟨sampleCiphers_sound factory_roundTrips, sampleDraw_gcd,
    message_readable sha256 .utc (sampleCiphers_sound factory_roundTrips) sampleKey sampleReceiver
      sampleDraw_gcd (fun _ => sampleDrawn) rfl rfl⟩

/-! ### Keys over another prime -/

def otherPrime : ℕ := 3 * 2 ^ 189 + 1

theorem otherPrime_prime : otherPrime.Prime :=
  prime_of_powMod 10 189 3 (by decide +kernel) Nat.prime_three (by decide +kernel)
    (by decide +kernel) (by decide +kernel)

theorem other_roundTrips : ElGamalEngineK.engine.RoundTrips otherPrime 10 :=
  ElGamalEngineK.roundTrips_of_powMod (by decide +kernel) (by decide +kernel)

def otherPair (x : ℕ) : Sigma.ElGamalKey := ⟨10 ^ x, otherPrime, 10, some x⟩

/-- The password in the slot of the sender is under the parameters of the factory, and is too long
for a smaller modulus. -/
theorem not_readable_of_smaller {p : ℕ} (hp : 256 ^ 20 ≤ p)
    (hsmaller : (bitLength p + 7) / 8 < (bitLength P + 7) / 8) {g x y y' : ℤ} {x' : Option ℤ}
    {draws : ℕ → Draw} (hdraw : Int.gcd (draws 0).val ((P : ℤ) - 1) = 1)
    (crypts : ℕ → Drawn sampleCiphers) {m : Message} {content : String}
    (hcontent : m.messageContent = some content) (hkey : m.pbkey = some y) :
    ¬ Readable sampleCiphers hash z ⟨y, p, g, some x⟩ ⟨y', p, g, x'⟩ draws crypts m := by
  obtain ⟨σ, hσ⟩ := (sign_total hash x (m.entity.signedBytes z Message.annotation)).mpr hdraw
  have hsize : (crypts 0).pwd.getBytes.length = 20 := (crypts 0).pwd.block.1
  obtain ⟨content0, h0, -⟩ := ElGamalEngineK.length_encrypt
    (lt_of_lt_of_le (by norm_num) hp : 1 < p) g y' (crypts 0).first (crypts 0).pwd.getBytes
    (by rw [hsize]; exact hp)
  obtain ⟨content1, h1, hlength⟩ := ElGamalEngineK.length_encrypt one_lt_P G y (crypts 0).second
    (crypts 0).pwd.getBytes (by rw [hsize]; decide +kernel)
  obtain ⟨content2, h2, -⟩ := SerpentEncrypter.decrypt_encrypt (sampleSerpent_inverse ())
    (crypts 0).initVector (Text.getBytes content)
  have htext : encryptMsgSecond sampleCiphers (some ⟨y', p, g, x'⟩) (factoryKey y) (crypts 0)
      (Text.getBytes content) = .ok (sampleCiphers.json.toJson [content0, content1, content2]) :=
    encryptMsgSecond_eq h0 h1 h2
  have hread : decryptMsgSecond sampleCiphers (some ⟨y, p, g, some x⟩) (factoryKey y)
      (sampleCiphers.json.toJson [content0, content1, content2]) = .error .dataLength := by
    have hlong : ElGamalEncrypter.decrypt sampleCiphers.engine (some ⟨y, p, g, some x⟩)
        (some content1) = .error .dataLength :=
      ElGamalEngineK.decrypt_long (p := p) (by omega) g x
    rw [decryptMsgSecond_eq (sampleCiphers_sound factory_roundTrips).json, factoryKey, if_pos rfl,
      hlong, error_bind]
  rintro ⟨stored, σ', hpersist, hreads⟩
  rw [persist_eq hcontent hkey rfl hσ htext] at hpersist
  obtain rfl := Except.ok.inj hpersist
  have hdecrypt := Message.decryptFields_error (z := z)
    (m := { m with signature := some σ, messageContent := _ }) rfl hkey (by decide) hread
  have hfail := hreads _ (Or.inr rfl)
  unfold read at hfail
  rw [hdecrypt, error_bind] at hfail
  cases hfail

/-- Two pairs of keys over one prime and one generator, and a message that the sender cannot
read. -/
theorem other_parameters : otherPrime.Prime ∧ modPow 10 6 otherPrime = .ok (10 ^ 6) ∧
    modPow 10 5 otherPrime = .ok (10 ^ 5) ∧ Sound sampleCiphers otherPrime 10 ∧
    Sound sampleCiphers P G ∧ Int.gcd sampleDraw.val ((otherPrime : ℤ) - 1) = 1 ∧
    ¬ Readable sampleCiphers sha256 .utc (otherPair 6) (otherPair 5) (fun _ => sampleDraw)
      (fun _ => sampleDrawn) (helloMessage (10 ^ 6)) :=
  ⟨otherPrime_prime, by decide +kernel, by decide +kernel, sampleCiphers_sound other_roundTrips,
    sampleCiphers_sound factory_roundTrips, by decide +kernel,
    not_readable_of_smaller sha256 .utc (by decide +kernel) (by decide +kernel) sampleDraw_gcd _
      rfl rfl⟩

end CryptoMessageManagerDecorator

end SXP.Controller
