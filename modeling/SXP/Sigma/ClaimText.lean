import SXP.Lib.Base64
import SXP.Lib.Hex
import SXP.Sigma.Entity

/-!
# The text of a claim

What `JsonTools` writes for an array of promises: the fields of a class in the
order of their declaration, numbers in decimal digits, bytes in Base64, the
numbers of a key in quoted hexadecimal digits, and the map of a clause as an
array of its entries, in the order of a `HashMap` of sixteen buckets, that is
one of at most twelve entries.

A promise also carries the message it is about.  No method reads it again, so
it is no part of `OrClause`; the writer takes it as an argument.
-/

namespace SXP.Sigma

open SXP.Lib SXP.Lib.Text

namespace Json

def object (fields : List (String × String)) : String :=
  "\x7b" ++ String.intercalate "," (fields.map fun f => "\"" ++ f.1 ++ "\":" ++ f.2) ++ "\x7d"

def array (elements : List String) : String := "[" ++ String.intercalate "," elements ++ "]"

def quote (text : String) : String := "\"" ++ text ++ "\""

def nullable {α : Type} (write : α → String) : Option α → String
  | none => "null"
  | some a => write a

def bytes (l : List UInt8) : String := quote (String.ofList (Base64.encode l))

end Json

open Json

def ElGamalKey.toJson (k : ElGamalKey) : String :=
  object [("publicKey", quote (Hex.hexadecimal k.publicKey)), ("p", quote (Hex.hexadecimal k.p)),
    ("g", quote (Hex.hexadecimal k.g))]

def Masks.toJson (m : Masks) : String :=
  object [("a", decimal m.a), ("aBis", nullable decimal m.aBis)]

def ResponsesKind.className : ResponsesKind → String
  | .schnorr => "model.entity.sigma.ResponsesSchnorr"
  | .cce => "model.entity.sigma.ResponsesCCE"
  | .ccd => "model.entity.sigma.ResponsesCCD"

def Responses.toJson (r : Responses) : String :=
  object [("type", quote r.kind.className), ("masks", r.masks.toJson),
    ("challenge", decimal r.challenge), ("response", decimal r.response)]

def ResEncrypt.toJson (res : ResEncrypt) : String :=
  object [("u", decimal res.u), ("v", decimal res.v), ("m", bytes res.M)]

/-- The bucket of a key in a table of sixteen. -/
def Responses.bucket (r : Responses) : ℕ :=
  let h := r.hashCode.toUInt32
  ((h ^^^ (h >>> 16)) &&& 15).toNat

/-- The entries in the order of the buckets; in one bucket the first that was put is first. -/
def ResponseKeys.entrySet (m : ResponseKeys) : List (Responses × ElGamalKey) :=
  (List.range 16).flatMap fun i => m.filter fun e => e.1.bucket == i

def ResponseKeys.toJson (m : ResponseKeys) : String :=
  array (m.entrySet.map fun e => object [("key", e.1.toJson), ("value", e.2.toJson)])

def AndClause.toJson (and : AndClause) : String :=
  object [("resEncrypt", and.resEncrypt.toJson), ("rK", and.rK.toJson),
    ("responses", array (and.responses.map Responses.toJson))]

def OrClause.toJson (contract : Option (List UInt8)) (o : OrClause) : String :=
  object [("contract", nullable bytes contract), ("ands", array (o.ands.map AndClause.toJson)),
    ("a", decimal o.a)]

/-- The text of a claim with promises on `contract`. -/
def claimJson (contract : Option (List UInt8)) (ors : List (Option OrClause)) : String :=
  array (ors.map (nullable (OrClause.toJson contract)))

/-- **A claim is never taken for an abort.** -/
theorem claimJson_ne_abort (contract : Option (List UInt8)) (ors : List (Option OrClause)) :
    claimJson contract ors ≠ "ABORT" := by
  intro h
  have hlist := congrArg String.toList h
  rw [claimJson, array, String.toList_append, String.toList_append] at hlist
  exact absurd (List.cons.inj hlist).1 (by decide)

end SXP.Sigma
