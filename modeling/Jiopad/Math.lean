import Jiopad.Hashes

/-!
# Fixed-width unsigned integers of `jio_math`

`Uint192` holds the blue work as 24 little-endian bytes and `Uint256` 32 bytes, most
significant first.  `Uint256::bits` runs its `u32` arithmetic as a debug build does,
`none` where it panics: it reads the lowest non-zero byte where the bit length needs
the highest, and its last subtraction underflows for the number 1 among others.
-/

namespace Jiopad

/-- `Uint192([u8; 24])`, little-endian. -/
structure Uint192 where
  bytes : List UInt8
  length_bytes : bytes.length = 24
  deriving DecidableEq

namespace Uint192

def fromU64 (val : UInt64) : Uint192 :=
  ⟨val.toLeBytes ++ List.replicate 16 0, by simp⟩

def toLeBytes (x : Uint192) : List UInt8 := x.bytes

@[simp] theorem length_toLeBytes (x : Uint192) : x.toLeBytes.length = 24 := x.length_bytes

theorem toLeBytes_inj {x y : Uint192} (h : x.toLeBytes = y.toLeBytes) : x = y := by
  cases x; cases y; cases h; rfl

end Uint192

structure Uint256 where
  bytes : List UInt8
  length_bytes : bytes.length = 32
  deriving DecidableEq

namespace Uint256

def fromCompactTargetBits (bits : UInt32) : Uint256 :=
  let exponent := (bits >>> 24).toNat
  let mantissa := bits &&& 0x00FFFFFF
  if h : exponent ≤ 3 then
    let shift := 3 - exponent
    let mantissaShifted := mantissa <<< UInt32.ofNat (8 * shift)
    let mantissaBytes := mantissaShifted.toBeBytes
    ⟨copyFromSlice (List.replicate 32 0) (32 - shift) (mantissaBytes.drop (4 - shift)),
      length_copyFromSlice (by simp [mantissaBytes, shift]; omega)⟩
  else
    let shift := exponent - 3
    if shift < 29 then
      let mantissaBytes := mantissa.toBeBytes
      let start := 32 - 4 - shift
      ⟨copyFromSlice (List.replicate 32 0) start mantissaBytes,
        length_copyFromSlice (by simp [mantissaBytes, start, shift])⟩
    else ⟨List.replicate 32 0, List.length_replicate _ _⟩

/-! ## `bits` -/

/-- `u32` subtraction as a debug build runs it: `none` where it underflows and panics. -/
def u32Sub (a b : Nat) : Option Nat := if b ≤ a then some (a - b) else none

/-- `u32` addition as a debug build runs it: `none` where it overflows and panics. -/
def u32Add (a b : Nat) : Option Nat := if a + b < 2 ^ 32 then some (a + b) else none

/-- `u32` multiplication as a debug build runs it: `none` where it overflows and panics. -/
def u32Mul (a b : Nat) : Option Nat := if a * b < 2 ^ 32 then some (a * b) else none

/-- The zero bits above the highest set bit of `x`, in a word of `width` bits:
`u32::leading_zeros` for `width = 32`. -/
def leadingZeros : Nat → Nat → Nat
  | 0, _ => 0
  | width + 1, x => if x < 2 ^ width then leadingZeros width x + 1 else 0

/-- The loop of `Uint256::bits` over `rev`, the bytes from the last, starting at `bits`:
at the first non-zero byte, `bits -= position * 8` with the position of the first
non-zero byte of `rev`, then `bits += leading_zeros(byte)` and `break`. -/
def bitsLoop (rev : List UInt8) (bits : Nat) : List UInt8 → Option Nat
  | [] => some bits
  | byte :: rest =>
    if byte != 0 then do
      let pos ← rev.findIdx? (· != 0)
      let bits ← u32Sub bits (← u32Mul (pos % 2 ^ 32) 8)
      u32Add bits (leadingZeros 32 byte.toNat)
    else bitsLoop rev bits rest

/-- `Uint256::bits`, as a debug build runs it: `none` where it panics. -/
def bits (x : Uint256) : Option UInt32 :=
  ((bitsLoop x.bytes.reverse 256 x.bytes.reverse).bind fun bits => u32Sub 256 bits).map UInt32.ofNat

/-- `bits` of the number 1, whose last byte is 1, underflows in its last subtraction;
`bits` of `2 ^ 255`, whose first byte is `0x80`, is 224, although `2 ^ 255` is not
below `2 ^ 224`. -/
theorem bits_lowest_byte :
    ofBeBytes (List.replicate 31 0 ++ [1]) = 1 ∧
    (⟨List.replicate 31 0 ++ [1], by simp⟩ : Uint256).bits = none ∧
    ofBeBytes (0x80 :: List.replicate 31 0) = 2 ^ 255 ∧
    (⟨0x80 :: List.replicate 31 0, by simp⟩ : Uint256).bits = some 224 ∧
    2 ^ 224 ≤ ofBeBytes (0x80 :: List.replicate 31 0) := by
  decide

end Uint256

end Jiopad
