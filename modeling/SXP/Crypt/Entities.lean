import SXP.Crypt.ElGamalSigner
import SXP.Lib.Date

/-!
# Entities

The parser of annotations reads an entity by reflection: a list of fields with their names,
values and annotations.  Items, messages and users are such lists, each with one field
that holds a signature of others.
-/

namespace SXP.Crypt

open SXP.Lib SXP.Lib.Java SXP.Lib.Text SXP.Lib.Date

/-! ### Fields -/

/-- An `ElGamalKey` in a field: its public key, and what it prints as. -/
structure KeyField where
  publicKey : Option ℤ
  printed : String
deriving DecidableEq, Repr

/-- A value of a field.  An `object` is one of any other class. -/
inductive FieldValue where
  | null
  | string (s : String)
  | bytes (b : List UInt8)
  | bigInteger (n : ℤ)
  | date (t : ℤ)
  | key (k : KeyField)
  | signature (σ : ElGamalSignature)
  | object (printed : String)
deriving DecidableEq, Repr

namespace FieldValue

def of {α : Type} (f : α → FieldValue) : Option α → FieldValue
  | none => .null
  | some a => f a

def integerText : Option ℤ → String
  | none => "null"
  | some n => decimal n

/-- What is appended for a value: bytes are decoded, everything else is printed. -/
def text (z : TimeZone) : FieldValue → String
  | .null => "null"
  | .string s => s
  | .bytes b => newString b
  | .bigInteger n => decimal n
  | .date t => Date.toString z t
  | .key k => k.printed
  | .signature σ =>
      "ElGamalSignEntity [r=" ++ integerText σ.r ++ ", s=" ++ integerText σ.s ++ "]"
  | .object printed => printed

end FieldValue

structure CryptSigneAnnotation where
  signeWithFields : List String
  checkByKey : String
deriving DecidableEq, Repr

/-- A declared field, with the annotation of a signature and the pattern of a date, if any. -/
structure Field where
  name : String
  value : FieldValue
  signe : Option CryptSigneAnnotation := none
  jsonFormat : Option Pattern := none
deriving DecidableEq, Repr

structure Entity where
  fields : List Field
deriving DecidableEq, Repr

namespace Entity

def getDeclaredField (e : Entity) (name : String) : Java FieldValue :=
  match e.fields.find? fun f => f.name == name with
  | none => throw .noSuchField
  | some f => pure f.value

def setField (e : Entity) (name : String) (value : FieldValue) : Entity :=
  ⟨e.fields.map fun f => if f.name = name then { f with value := value } else f⟩

def signedFields (e : Entity) : List (String × CryptSigneAnnotation) :=
  e.fields.filterMap fun f => f.signe.map fun a => (f.name, a)

/-- The text that is signed: the values one after the other.  A field that is not declared is
logged and adds nothing. -/
def signedText (z : TimeZone) (e : Entity) (a : CryptSigneAnnotation) : String :=
  String.join (a.signeWithFields.map fun name =>
    match e.getDeclaredField name with
    | .ok value => value.text z
    | .error _ => "")

def signedBytes (z : TimeZone) (e : Entity) (a : CryptSigneAnnotation) : List UInt8 :=
  getBytes (e.signedText z a)

end Entity

/-! ### The classes -/

structure Item where
  title : Option String
  description : Option String
  createdAt : Option ℤ
  pbkey : Option ℤ
  username : Option String
  userid : Option String
  signature : Option ElGamalSignature
deriving DecidableEq

structure Message where
  sendingDate : Option ℤ
  senderId : Option String
  senderName : Option String
  receiverId : Option String
  receiverName : Option String
  messageContent : Option String
  pbkey : Option ℤ
  signature : Option ElGamalSignature
deriving DecidableEq

structure User where
  nick : Option String
  salt : Option (List UInt8)
  passwordHash : Option (List UInt8)
  createdAt : Option ℤ
  keys : Option KeyField
  signature : Option ElGamalSignature
deriving DecidableEq

def Item.annotation : CryptSigneAnnotation :=
  ⟨["title", "description", "createdAt", "username", "userid", "pbkey"], "pbkey"⟩

def Message.annotation : CryptSigneAnnotation :=
  ⟨["sendingDate", "senderId", "senderName", "receiverId", "receiverName", "pbkey",
    "messageContent"], "pbkey"⟩

def User.annotation : CryptSigneAnnotation :=
  ⟨["nick", "createdAt", "passwordHash", "salt"], "keys"⟩

def Item.entity (i : Item) : Entity where
  fields := [
    { name := "title", value := .of .string i.title },
    { name := "description", value := .of .string i.description },
    { name := "createdAt", value := .of .date i.createdAt, jsonFormat := some .day },
    { name := "pbkey", value := .of .bigInteger i.pbkey },
    { name := "username", value := .of .string i.username },
    { name := "userid", value := .of .string i.userid },
    { name := "signature", value := .of .signature i.signature, signe := some Item.annotation }]

def Message.entity (m : Message) : Entity where
  fields := [
    { name := "sendingDate", value := .of .date m.sendingDate, jsonFormat := some .second },
    { name := "senderId", value := .of .string m.senderId },
    { name := "senderName", value := .of .string m.senderName },
    { name := "receiverId", value := .of .string m.receiverId },
    { name := "receiverName", value := .of .string m.receiverName },
    { name := "messageContent", value := .of .string m.messageContent },
    { name := "pbkey", value := .of .bigInteger m.pbkey },
    { name := "signature", value := .of .signature m.signature, signe := some Message.annotation }]

def User.entity (u : User) : Entity where
  fields := [
    { name := "nick", value := .of .string u.nick },
    { name := "salt", value := .of .bytes u.salt },
    { name := "passwordHash", value := .of .bytes u.passwordHash },
    { name := "createdAt", value := .of .date u.createdAt },
    { name := "keys", value := .of .key u.keys },
    { name := "signature", value := .of .signature u.signature, signe := some User.annotation }]

end SXP.Crypt
