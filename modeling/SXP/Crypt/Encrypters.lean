import SXP.Crypt.ElGamalEngine
import SXP.Lib.Chaining
import SXP.Sigma.Entity

/-!
# Encrypters

A text is encrypted with a password by the block cipher Serpent, in chained blocks, and the password
by ElGamal, for one key or for two.  The reader takes the password that is for its key.

The block cipher, the ElGamal engine and the JSON of byte arrays are those of libraries.
-/

namespace SXP.Crypt

open SXP.Lib SXP.Lib.Java SXP.Lib.BigInteger SXP.Lib.Text SXP.Lib.Chaining

def defined {α : Type} : Option α → Java α
  | none => throw (.runtime "key not defined")
  | some k => pure k

/-! ### Serpent -/

abbrev Block : Type := Fin 16 → UInt8

/-- The block cipher.  A password may be no key. -/
structure Serpent where
  Key : Type
  makeKey : List UInt8 → Option Key
  blockEncrypt : Key → Block → Block
  blockDecrypt : Key → Block → Block

namespace SerpentEncrypter

variable (S : Serpent)

def xor (b b' : Block) : Block := fun i => b i ^^^ b' i

/-- The loop takes as many blocks as begin within the text.  The last byte counts the zeros that
were added. -/
def encrypt (key : Option S.Key) (initVector : Block) (plainText : List UInt8) :
    Java (List UInt8) := do
  let k ← defined key
  let rounds := (plainText.length + 15) / 16
  let blocks := initVector :: encode xor (S.blockEncrypt k) initVector
    ((List.range rounds).map fun i => getBlock 0 16 i plainText)
  return join blocks ++ [UInt8.ofNat ((blocks.length - 1) * 16 - plainText.length)]

/-- The number of zeros is a signed byte.  What the loop does not fill stays zero. -/
def decrypt (key : Option S.Key) (cypher : Option (List UInt8)) : Java (List UInt8) := do
  let k ← defined key
  let cypher ← nonNull cypher
  let added ← first cypher.reverse
  let size : ℤ := cypher.length - added.toInt8.toInt - 16 - 1
  if size < 0 then throw (.runtime "NegativeArraySizeException")
  else
    let rounds := (cypher.length - 2) / 16
    let plainText := join ((List.range rounds).map fun i =>
      xor (S.blockDecrypt k (getBlock 0 16 (i + 1) cypher)) (getBlock 0 16 i cypher))
    return (plainText ++ List.replicate size.toNat 0).take size.toNat

/-- The key of the encrypter stays when the password is no key. -/
def setKey (key : Option S.Key) (password : List UInt8) : Option S.Key :=
  match S.makeKey password with
  | some k => some k
  | none => key

variable {S}

theorem xor_xor_self (b b' : Block) : xor (xor b b') b = b' := by
  funext i
  rw [xor, xor, UInt8.xor_comm, ← UInt8.xor_assoc, UInt8.xor_self, UInt8.zero_xor]

theorem toInt_added : ∀ n < 16, (UInt8.ofNat n).toInt8.toInt = n := by decide

/-- **Texts come back.** -/
theorem decrypt_encrypt {k : S.Key}
    (hk : Function.LeftInverse (S.blockDecrypt k) (S.blockEncrypt k)) (initVector : Block)
    (plainText : List UInt8) : ∃ cypher, encrypt S (some k) initVector plainText = .ok cypher ∧
      decrypt S (some k) (some cypher) = .ok plainText := by
  let bs := (List.range ((plainText.length + 15) / 16)).map fun i => getBlock 0 16 i plainText
  have hblocks := decode_encode xor hk xor_xor_self initVector bs
  have hlength := length_encode xor (S.blockEncrypt k) initVector bs
  have hbs : bs.length = (plainText.length + 15) / 16 := by simp [bs]
  refine ⟨_, rfl, ?_⟩
  generalize encode xor (S.blockEncrypt k) initVector bs = codes at hblocks hlength ⊢
  let added := (codes.length + 1 - 1) * 16 - plainText.length
  let cypher := join (initVector :: codes) ++ [UInt8.ofNat added]
  have htext := take_join_getBlock (0 : UInt8) plainText (n := 16)
    (m := (plainText.length + 15) / 16) (by omega)
  have hadded := toInt_added added (by omega)
  have hcypher : cypher.length = (codes.length + 1) * 16 + 1 := by
    simp [cypher, length_join]
  have hrounds : (cypher.length - 2) / 16 = codes.length := by omega
  have hsize : (cypher.length : ℤ) - (UInt8.ofNat added).toInt8.toInt - 16 - 1 =
      plainText.length := by
    rw [hadded, hcypher]
    omega
  have hfirst : first cypher.reverse = .ok (UInt8.ofNat added) := by
    rw [List.reverse_append]
    rfl
  change decrypt S (some k) (some cypher) = _
  unfold decrypt
  rw [defined, pure_eq, ok_bind, nonNull_some, ok_bind, hfirst, ok_bind]
  dsimp only
  rw [hsize, if_neg (by omega), hrounds, decode_getBlock 0 xor _ initVector codes, hblocks,
    pure_eq, Int.toNat_natCast, List.take_append_of_le_length, htext]
  rw [length_join, hbs]
  omega

/-- **Texts of every length come back** from an encrypter to which the same password was set. -/
theorem round_trip
    (hS : ∀ k, Function.LeftInverse (S.blockDecrypt k) (S.blockEncrypt k)) {password : List UInt8}
    (hpassword : ∃ k, S.makeKey password = some k) (key key' : Option S.Key) (initVector : Block)
    (plainText : List UInt8) :
    (encrypt S (setKey S key password) initVector plainText >>= fun cypher =>
      decrypt S (setKey S key' password) (some cypher)) = .ok plainText := by
  obtain ⟨k, hk⟩ := hpassword
  have hset : ∀ key, setKey S key password = some k := by
    intro key
    rw [setKey, hk]
  obtain ⟨cypher, hcypher, htext⟩ := decrypt_encrypt (hS k) initVector plainText
  rw [hset, hset, hcypher, ok_bind, htext]

/-- The block `0` and its code under the password `80 00 ... 00`. -/
def zeroBlock : Block := fun _ => 0

def zeroCode : Block := fun i =>
  [0x26, 0x4E, 0x54, 0x81, 0xEF, 0xF4, 0x2A, 0x46, 0x06, 0xAB, 0xDA, 0x06, 0xC0, 0xBF, 0xDA, 0x3D].get i

def sampleCipher : Serpent where
  Key := Unit
  makeKey password := if password = 0x80 :: List.replicate 15 0 then some () else none
  blockEncrypt _ := Equiv.swap zeroBlock zeroCode
  blockDecrypt _ := Equiv.swap zeroBlock zeroCode

/-- Three bytes, with an initial vector that makes a zero block of them. -/
theorem round_trip_sample :
    (encrypt sampleCipher (setKey sampleCipher none (0x80 :: List.replicate 15 0))
        (getBlock 0 16 0 [1, 2, 3]) [1, 2, 3] >>= fun cypher =>
      decrypt sampleCipher (setKey sampleCipher none (0x80 :: List.replicate 15 0))
        (some cypher)) = .ok [1, 2, 3] :=
  round_trip (S := sampleCipher)
    (fun _ => DFunLike.congr_fun (Equiv.swap_swap zeroBlock zeroCode)) ⟨(), rfl⟩ none none _ _

end SerpentEncrypter

/-! ### ElGamal -/

namespace ElGamalEncrypter

variable (engine : ElGamalEngine)

def encrypt (key : Option Sigma.ElGamalKey) (random : engine.Random) (plainText : List UInt8) :
    Java (List UInt8) := do
  let k ← defined key
  engine.encrypt k.p k.g k.publicKey random plainText

def decrypt (key : Option Sigma.ElGamalKey) (cypher : Option (List UInt8)) : Java (List UInt8) := do
  let k ← defined key
  let cypher ← nonNull cypher
  let x ← nonNull k.privateKey
  engine.decrypt k.p k.g x cypher

end ElGamalEncrypter

/-! ### Both -/

/-- Arrays of byte arrays as JSON.  A text that is none is read as null. -/
structure ByteArraysJson where
  toJson : List (List UInt8) → String
  toEntity : String → Option (List (Option (List UInt8)))

/-- What libraries do. -/
structure Ciphers where
  engine : ElGamalEngine
  serpent : Serpent
  json : ByteArraysJson

namespace ElGamalSerpentEncrypter

def characters : List Char :=
  ("ABCDEFGHIJKLMNOPQRSTUVWXYZabcdefghijklmnopqrstuvwxyz0123456789" ++
    "~`!@#$%^&*()-_=+[\x7b]\x7d\\|;:'\",<.>/?").toList

abbrev Password : Type := { pwd : List Char // pwd.length = 20 ∧ ∀ c ∈ pwd, c ∈ characters }

def Password.getBytes (pwd : Password) : List UInt8 := Text.getBytes (String.ofList pwd.val)

variable (c : Ciphers)

structure Drawn where
  pwd : Password
  first : c.engine.Random
  second : c.engine.Random
  initVector : Block

def encryptMsg (key : Option Sigma.ElGamalKey) (d : Drawn c) (msg : List UInt8) : Java String := do
  let pwd := d.pwd.getBytes
  let content0 ← ElGamalEncrypter.encrypt c.engine key d.first pwd
  let content1 ← SerpentEncrypter.encrypt c.serpent (c.serpent.makeKey pwd) d.initVector msg
  return c.json.toJson [content0, content1]

def element (content : List (Option (List UInt8))) (i : ℕ) : Java (Option (List UInt8)) :=
  match content[i]? with
  | none => throw .indexOutOfBounds
  | some bytes => pure bytes

def decryptMsg (key : Option Sigma.ElGamalKey) (msg : String) : Java (List UInt8) := do
  let content ← nonNull (c.json.toEntity msg)
  let pwd ← ElGamalEncrypter.decrypt c.engine key (← element content 0)
  SerpentEncrypter.decrypt c.serpent (c.serpent.makeKey pwd) (← element content 1)

def encryptMsgSecond (key : Option Sigma.ElGamalKey) (secondKey : Sigma.ElGamalKey) (d : Drawn c)
    (msg : List UInt8) : Java String := do
  let pwd := d.pwd.getBytes
  let content0 ← ElGamalEncrypter.encrypt c.engine key d.first pwd
  let content1 ← ElGamalEncrypter.encrypt c.engine (some secondKey) d.second pwd
  let content2 ← SerpentEncrypter.encrypt c.serpent (c.serpent.makeKey pwd) d.initVector msg
  return c.json.toJson [content0, content1, content2]

def decryptMsgSecond (key : Option Sigma.ElGamalKey) (secondKey : Sigma.ElGamalKey) (msg : String) :
    Java (List UInt8) := do
  let content ← nonNull (c.json.toEntity msg)
  let k ← nonNull key
  let slot := if k.publicKey = secondKey.publicKey then 1 else 0
  let pwd ← ElGamalEncrypter.decrypt c.engine key (← element content slot)
  SerpentEncrypter.decrypt c.serpent (c.serpent.makeKey pwd) (← element content 2)

/-! ### Texts come back -/

/-- What the libraries are relied on for, with keys over `p` and `g`. -/
structure Sound (c : Ciphers) (p g : ℤ) : Prop where
  engine : c.engine.RoundTrips p g
  serpent : ∀ key, key.length = 20 → ∃ k, c.serpent.makeKey key = some k ∧
    Function.LeftInverse (c.serpent.blockDecrypt k) (c.serpent.blockEncrypt k)
  json : ∀ content, c.json.toEntity (c.json.toJson content) = some (content.map some)

theorem ascii_of_mem : ∀ ch ∈ characters, ch.toNat < 128 ∧ ch.val.toUInt8 ≠ 0 := by
  have hall : characters.all (fun ch => ch.toNat < 128 && ch.val.toUInt8 != 0) = true := by
    decide
  simpa using hall

theorem Password.getBytes_eq (pwd : Password) :
    pwd.getBytes = pwd.val.map fun ch => ch.val.toUInt8 := by
  obtain ⟨l, hlength, hl⟩ := pwd
  change (String.ofList l).toList.flatMap String.utf8EncodeChar = _
  rw [String.toList_ofList]
  dsimp only
  clear hlength
  induction l with
  | nil => rfl
  | cons ch l ih =>
    rw [List.flatMap_cons, encode_ascii (ascii_of_mem ch (hl ch List.mem_cons_self)).1,
      ih fun ch' h => hl ch' (List.mem_cons_of_mem ch h)]
    rfl

theorem Password.block (pwd : Password) : pwd.getBytes.length = 20 ∧ pwd.getBytes.headD 0 ≠ 0 := by
  rw [pwd.getBytes_eq]
  obtain ⟨l, hlength, hl⟩ := pwd
  refine ⟨by rw [List.length_map, hlength], ?_⟩
  cases l with
  | nil => exact absurd hlength (by decide)
  | cons ch l => exact (ascii_of_mem ch (hl ch List.mem_cons_self)).2

section

variable {c : Ciphers} {p g : ℤ}

theorem password_comes_back (hc : Sound c p g) (hp : 256 ^ 20 ≤ p) {x y : ℤ}
    (hy : modPow g x p = .ok y) (random : c.engine.Random) (pwd : Password) :
    ∃ content, c.engine.encrypt p g y random pwd.getBytes = .ok content ∧
      ElGamalEncrypter.decrypt c.engine (some ⟨y, p, g, some x⟩) (some content) =
        .ok pwd.getBytes := by
  obtain ⟨hlength, hhead⟩ := pwd.block
  exact hc.engine x y random pwd.getBytes hy hhead (by rw [hlength]; exact hp)

theorem encryptMsgSecond_eq {key : Option Sigma.ElGamalKey} {secondKey : Sigma.ElGamalKey}
    {d : Drawn c} {msg content0 content1 content2 : List UInt8}
    (h0 : ElGamalEncrypter.encrypt c.engine key d.first d.pwd.getBytes = .ok content0)
    (h1 : ElGamalEncrypter.encrypt c.engine (some secondKey) d.second d.pwd.getBytes = .ok content1)
    (h2 : SerpentEncrypter.encrypt c.serpent (c.serpent.makeKey d.pwd.getBytes) d.initVector msg =
      .ok content2) :
    encryptMsgSecond c key secondKey d msg =
      .ok (c.json.toJson [content0, content1, content2]) := by
  unfold encryptMsgSecond
  dsimp only
  rw [h0, ok_bind, h1, ok_bind, h2, ok_bind, pure_eq]

/-- The password is looked for in the slot of the reader's key. -/
theorem decryptMsgSecond_eq
    (hjson : ∀ content, c.json.toEntity (c.json.toJson content) = some (content.map some))
    (reader secondKey : Sigma.ElGamalKey) (content0 content1 content2 : List UInt8) :
    decryptMsgSecond c (some reader) secondKey (c.json.toJson [content0, content1, content2]) =
      ElGamalEncrypter.decrypt c.engine (some reader)
          (some (if reader.publicKey = secondKey.publicKey then content1 else content0)) >>=
        fun pwd => SerpentEncrypter.decrypt c.serpent (c.serpent.makeKey pwd) (some content2) := by
  unfold decryptMsgSecond
  rw [hjson, nonNull_some, ok_bind, nonNull_some, ok_bind]
  by_cases hsame : reader.publicKey = secondKey.publicKey
  · rw [if_pos hsame, if_pos hsame]
    rfl
  · rw [if_neg hsame, if_neg hsame]
    rfl

/-- **Both ends can read the text.**  Each takes the password that was encrypted for its key. -/
theorem decryptMsgSecond_of_encrypted (hc : Sound c p g) (hp : 256 ^ 20 ≤ p)
    (receiver sender : Sigma.ElGamalKey) (hreceiver : receiver.p = p ∧ receiver.g = g)
    (hsender : sender.p = p ∧ sender.g = g) {x x' : ℤ}
    (hx : modPow g x p = .ok receiver.publicKey) (hx' : modPow g x' p = .ok sender.publicKey)
    (d : Drawn c) (msg : List UInt8) :
    ∃ text, encryptMsgSecond c (some receiver) sender d msg = .ok text ∧
      ∀ z y, modPow g z p = .ok y → y = receiver.publicKey ∨ y = sender.publicKey →
        decryptMsgSecond c (some ⟨y, p, g, some z⟩) sender text = .ok msg := by
  obtain ⟨content0, h0, -⟩ := password_comes_back hc hp hx d.first d.pwd
  obtain ⟨content1, h1, -⟩ := password_comes_back hc hp hx' d.second d.pwd
  obtain ⟨k, hk, hinverse⟩ := hc.serpent d.pwd.getBytes d.pwd.block.1
  obtain ⟨content2, h2, hmsg⟩ := SerpentEncrypter.decrypt_encrypt hinverse d.initVector msg
  rw [← hreceiver.1, ← hreceiver.2] at h0
  rw [← hsender.1, ← hsender.2] at h1
  refine ⟨_, encryptMsgSecond_eq h0 h1 (hk ▸ h2), fun z y hz hy => ?_⟩
  -- the password in the slot of the reader
  have hslot : ElGamalEncrypter.decrypt c.engine (some ⟨y, p, g, some z⟩)
      (some (if y = sender.publicKey then content1 else content0)) = .ok d.pwd.getBytes := by
    by_cases hsame : y = sender.publicKey
    · obtain ⟨content, hcontent, hpwd⟩ := password_comes_back hc hp hz d.second d.pwd
      rw [hsame, ← hsender.1, ← hsender.2, h1] at hcontent
      rw [if_pos hsame, Except.ok.inj hcontent]
      exact hpwd
    · obtain ⟨content, hcontent, hpwd⟩ := password_comes_back hc hp hz d.first d.pwd
      rw [hy.resolve_right hsame, ← hreceiver.1, ← hreceiver.2, h0] at hcontent
      rw [if_neg hsame, Except.ok.inj hcontent]
      exact hpwd
  rw [decryptMsgSecond_eq hc.json, hslot, ok_bind, hk]
  exact hmsg

end

end ElGamalSerpentEncrypter

end SXP.Crypt
