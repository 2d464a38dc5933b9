import Jiopad.Hashes

/-!
# SHA-256

`hash_data` digests with the `sha2` crate, which is not part of this repository, so the
model takes the digest as a parameter `sha256`.  This module gives one computable
instance of that parameter, SHA-256 itself, to evaluate digests of fixed inputs.
-/

namespace Jiopad

namespace Sha256

def k : List UInt32 :=
  [0x428a2f98, 0x71374491, 0xb5c0fbcf, 0xe9b5dba5, 0x3956c25b, 0x59f111f1, 0x923f82a4, 0xab1c5ed5,
   0xd807aa98, 0x12835b01, 0x243185be, 0x550c7dc3, 0x72be5d74, 0x80deb1fe, 0x9bdc06a7, 0xc19bf174,
   0xe49b69c1, 0xefbe4786, 0x0fc19dc6, 0x240ca1cc, 0x2de92c6f, 0x4a7484aa, 0x5cb0a9dc, 0x76f988da,
   0x983e5152, 0xa831c66d, 0xb00327c8, 0xbf597fc7, 0xc6e00bf3, 0xd5a79147, 0x06ca6351, 0x14292967,
   0x27b70a85, 0x2e1b2138, 0x4d2c6dfc, 0x53380d13, 0x650a7354, 0x766a0abb, 0x81c2c92e, 0x92722c85,
   0xa2bfe8a1, 0xa81a664b, 0xc24b8b70, 0xc76c51a3, 0xd192e819, 0xd6990624, 0xf40e3585, 0x106aa070,
   0x19a4c116, 0x1e376c08, 0x2748774c, 0x34b0bcb5, 0x391c0cb3, 0x4ed8aa4a, 0x5b9cca4f, 0x682e6ff3,
   0x748f82ee, 0x78a5636f, 0x84c87814, 0x8cc70208, 0x90befffa, 0xa4506ceb, 0xbef9a3f7, 0xc67178f2]

structure Vars where
  a : UInt32
  b : UInt32
  c : UInt32
  d : UInt32
  e : UInt32
  f : UInt32
  g : UInt32
  h : UInt32
  deriving DecidableEq

def initial : Vars :=
  ⟨0x6a09e667, 0xbb67ae85, 0x3c6ef372, 0xa54ff53a, 0x510e527f, 0x9b05688c, 0x1f83d9ab, 0x5be0cd19⟩

def rotr (x n : UInt32) : UInt32 := (x >>> n) ||| (x <<< (32 - n))

def ch (x y z : UInt32) : UInt32 := (x &&& y) ^^^ (~~~x &&& z)

def maj (x y z : UInt32) : UInt32 := (x &&& y) ^^^ (x &&& z) ^^^ (y &&& z)

def bigSigma0 (x : UInt32) : UInt32 := rotr x 2 ^^^ rotr x 13 ^^^ rotr x 22

def bigSigma1 (x : UInt32) : UInt32 := rotr x 6 ^^^ rotr x 11 ^^^ rotr x 25

def smallSigma0 (x : UInt32) : UInt32 := rotr x 7 ^^^ rotr x 18 ^^^ (x >>> 3)

def smallSigma1 (x : UInt32) : UInt32 := rotr x 17 ^^^ rotr x 19 ^^^ (x >>> 10)

/-- The message, the byte `0x80`, zeros up to 8 bytes short of a multiple of 64, and
the message's length in bits as a big-endian `u64`. -/
def pad (msg : List UInt8) : List UInt8 :=
  msg ++ 0x80 :: List.replicate ((119 - msg.length % 64) % 64) 0 ++
    (leBytes 8 (8 * msg.length)).reverse

def words : List UInt8 → List UInt32
  | b₀ :: b₁ :: b₂ :: b₃ :: rest =>
    (b₀.toUInt32 <<< 24 ||| b₁.toUInt32 <<< 16 ||| b₂.toUInt32 <<< 8 ||| b₃.toUInt32) :: words rest
  | _ => []

def schedule (w : List UInt32) : Nat → List UInt32
  | 0 => w
  | n + 1 =>
    schedule (w ++ [smallSigma1 (w.getD (w.length - 2) 0) + w.getD (w.length - 7) 0 +
      smallSigma0 (w.getD (w.length - 15) 0) + w.getD (w.length - 16) 0]) n

def round (s : Vars) (kw : UInt32 × UInt32) : Vars :=
  let t₁ := s.h + bigSigma1 s.e + ch s.e s.f s.g + kw.1 + kw.2
  let t₂ := bigSigma0 s.a + maj s.a s.b s.c
  ⟨t₁ + t₂, s.a, s.b, s.c, s.d + t₁, s.e, s.f, s.g⟩

def compress (hv : Vars) (block : List UInt8) : Vars :=
  let s := (k.zip (schedule (words block) 48)).foldl round hv
  ⟨hv.a + s.a, hv.b + s.b, hv.c + s.c, hv.d + s.d, hv.e + s.e, hv.f + s.f, hv.g + s.g, hv.h + s.h⟩

def blocks (hv : Vars) : Nat → List UInt8 → Vars
  | 0, _ => hv
  | n + 1, bs => blocks (compress hv (bs.take 64)) n (bs.drop 64)

def wordBytes (x : UInt32) : List UInt8 := (leBytes 4 x.toNat).reverse

/-- The SHA-256 digest. -/
def digest (msg : List UInt8) : List UInt8 :=
  let hv := blocks initial ((pad msg).length / 64) (pad msg)
  [hv.a, hv.b, hv.c, hv.d, hv.e, hv.f, hv.g, hv.h].flatMap wordBytes

set_option maxRecDepth 100000 in
example : digest [] =
    (leBytes 32 0xe3b0c44298fc1c149afbf4c8996fb92427ae41e4649b934ca495991b7852b855).reverse := by
  decide

set_option maxRecDepth 100000 in
example : digest [0x61, 0x62, 0x63] =
    (leBytes 32 0xba7816bf8f01cfea414140de5dae2223b00361a396177a9cb410ff61f20015ad).reverse := by
  decide

end Sha256

end Jiopad
