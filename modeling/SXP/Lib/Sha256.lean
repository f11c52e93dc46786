import Mathlib.Data.Nat.Notation

/-!
# SHA-256

The digest of `MessageDigest.getInstance("SHA-256")`.  A message is padded to
whole blocks of 64 bytes; each block expands into 64 words, and 64 rounds mix
them into the eight words of the state.  The theorems about proofs of knowledge
hold for every function to 32 bytes; this is the one the platform supplies.
-/

namespace SXP.Lib

abbrev Digest : Type := {bytes : List UInt8 // bytes.length = 32}

namespace Sha256

def roundConstants : List UInt32 :=
   [0x428a2f98, 0x71374491, 0xb5c0fbcf, 0xe9b5dba5, 0x3956c25b, 0x59f111f1,
    0x923f82a4, 0xab1c5ed5, 0xd807aa98, 0x12835b01, 0x243185be, 0x550c7dc3,
    0x72be5d74, 0x80deb1fe, 0x9bdc06a7, 0xc19bf174, 0xe49b69c1, 0xefbe4786,
    0x0fc19dc6, 0x240ca1cc, 0x2de92c6f, 0x4a7484aa, 0x5cb0a9dc, 0x76f988da,
    0x983e5152, 0xa831c66d, 0xb00327c8, 0xbf597fc7, 0xc6e00bf3, 0xd5a79147,
    0x06ca6351, 0x14292967, 0x27b70a85, 0x2e1b2138, 0x4d2c6dfc, 0x53380d13,
    0x650a7354, 0x766a0abb, 0x81c2c92e, 0x92722c85, 0xa2bfe8a1, 0xa81a664b,
    0xc24b8b70, 0xc76c51a3, 0xd192e819, 0xd6990624, 0xf40e3585, 0x106aa070,
    0x19a4c116, 0x1e376c08, 0x2748774c, 0x34b0bcb5, 0x391c0cb3, 0x4ed8aa4a,
    0x5b9cca4f, 0x682e6ff3, 0x748f82ee, 0x78a5636f, 0x84c87814, 0x8cc70208,
    0x90befffa, 0xa4506ceb, 0xbef9a3f7, 0xc67178f2]

structure State where
  a : UInt32
  b : UInt32
  c : UInt32
  d : UInt32
  e : UInt32
  f : UInt32
  g : UInt32
  h : UInt32

def State.initial : State :=
  ⟨0x6a09e667, 0xbb67ae85, 0x3c6ef372, 0xa54ff53a, 0x510e527f, 0x9b05688c, 0x1f83d9ab, 0x5be0cd19⟩

def State.add (s t : State) : State :=
  ⟨s.a + t.a, s.b + t.b, s.c + t.c, s.d + t.d, s.e + t.e, s.f + t.f, s.g + t.g, s.h + t.h⟩

def rotr (x n : UInt32) : UInt32 := (x >>> n) ||| (x <<< (32 - n))

def State.round (s : State) (kw : UInt32 × UInt32) : State :=
  let t1 := s.h + (rotr s.e 6 ^^^ rotr s.e 11 ^^^ rotr s.e 25)
    + ((s.e &&& s.f) ^^^ (~~~s.e &&& s.g)) + kw.1 + kw.2
  let t2 := (rotr s.a 2 ^^^ rotr s.a 13 ^^^ rotr s.a 22)
    + ((s.a &&& s.b) ^^^ (s.a &&& s.c) ^^^ (s.b &&& s.c))
  ⟨t1 + t2, s.a, s.b, s.c, s.d + t1, s.e, s.f, s.g⟩

/-- The schedule grows by `n` words; the newest word is at the head. -/
def expand : ℕ → List UInt32 → List UInt32
  | 0, w => w
  | n + 1, w =>
      let x := w.getD 1 0
      let y := w.getD 14 0
      expand n (((rotr x 17 ^^^ rotr x 19 ^^^ (x >>> 10)) + w.getD 6 0
        + (rotr y 7 ^^^ rotr y 18 ^^^ (y >>> 3)) + w.getD 15 0) :: w)

def words : List UInt8 → List UInt32
  | p :: q :: r :: s :: rest =>
      ((p.toUInt32 <<< 24) ||| (q.toUInt32 <<< 16) ||| (r.toUInt32 <<< 8) ||| s.toUInt32) :: words rest
  | _ => []

def compress (s : State) (block : List UInt8) : State :=
  let schedule := (expand 48 (words block).reverse).reverse
  s.add ((roundConstants.zip schedule).foldl State.round s)

/-- The blocks, taken one after the other. -/
def absorb : ℕ → State → List UInt8 → State
  | 0, s, _ => s
  | n + 1, s, bytes => absorb n (compress s (bytes.take 64)) (bytes.drop 64)

/-- The `n` bytes of a number, most significant first. -/
def bigEndian : ℕ → ℕ → List UInt8
  | 0, _ => []
  | n + 1, v => UInt8.ofNat (v / 256 ^ n) :: bigEndian n v

def pad (bytes : List UInt8) : List UInt8 :=
  bytes ++ 0x80 :: (List.replicate ((119 - bytes.length % 64) % 64) 0 ++ bigEndian 8 (8 * bytes.length))

def State.bytes (s : State) : List UInt8 :=
  [s.a, s.b, s.c, s.d, s.e, s.f, s.g, s.h].flatMap (fun w => bigEndian 4 w.toNat)

theorem State.bytes_length (s : State) : s.bytes.length = 32 := rfl

end Sha256

def sha256 (message : List UInt8) : Digest :=
  let padded := Sha256.pad message
  let s := Sha256.absorb (padded.length / 64) Sha256.State.initial padded
  ⟨s.bytes, s.bytes_length⟩

-- the digest of `abc` starts with `ba7816bf`
example : (sha256 [97, 98, 99]).1.take 4 = [0xba, 0x78, 0x16, 0xbf] := by decide +kernel

end SXP.Lib
