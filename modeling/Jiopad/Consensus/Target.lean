import Jiopad.Math
import Mathlib.Data.List.Lex

/-!
# Compact targets

`target_from_bits` and `Uint256::from_compact_target_bits` both decode the compact form
of a target, exponent in the top byte and mantissa in the low three, into 32 big-endian
bytes.  Above exponent 3 both give `mantissa * 256 ^ (exponent - 3)`; at most 3 they
copy different bytes of the shifted mantissa, and neither shifts it right.
-/

theorem UInt32.toNat_mod_32 (n : UInt32) : (n.mod 32).toBitVec.toNat = n.toNat % 32 := by
  show (n.toBitVec % (32 : UInt32).toBitVec).toNat = _
  rw [BitVec.toNat_umod]
  rfl

theorem UInt32.toNat_shiftRight_of_lt (x n : UInt32) (hn : n.toNat < 32) :
    (x >>> n).toNat = x.toNat / 2 ^ n.toNat := by
  show (x.toBitVec >>> (n.mod 32).toBitVec).toNat = _
  rw [BitVec.ushiftRight_eq', BitVec.toNat_ushiftRight, Nat.shiftRight_eq_div_pow,
    UInt32.toNat_mod_32, Nat.mod_eq_of_lt hn]
  rfl

theorem UInt32.toNat_shiftLeft_of_lt (x n : UInt32) (hn : n.toNat < 32) :
    (x <<< n).toNat = x.toNat * 2 ^ n.toNat % 2 ^ 32 := by
  show (x.toBitVec <<< (n.mod 32).toBitVec).toNat = _
  rw [BitVec.shiftLeft_eq', BitVec.toNat_shiftLeft, Nat.shiftLeft_eq,
    UInt32.toNat_mod_32, Nat.mod_eq_of_lt hn]
  rfl

theorem UInt32.toNat_and_low24 (x : UInt32) : (x &&& 0x00ffffff).toNat = x.toNat % 2 ^ 24 := by
  show (x.toBitVec &&& (0x00ffffff : UInt32).toBitVec).toNat = _
  rw [BitVec.toNat_and]
  exact Nat.and_pow_two_sub_one_eq_mod _ 24

namespace Jiopad

def targetFromBits (bits : UInt32) : List UInt8 :=
  let target : List UInt8 := List.replicate 32 0
  let exponent := (bits >>> 24).toNat
  let mantissa := bits &&& 0x00ffffff
  if exponent ≤ 3 then
    let shift := 3 - exponent
    copyFromSlice target (32 - shift) ((mantissa <<< UInt32.ofNat (8 * shift)).toBeBytes.take shift)
  else
    let shift := exponent - 3
    if shift < 29 then copyFromSlice target (32 - 4 - shift) mantissa.toBeBytes
    else target

private theorem exponent_mantissa (bits : UInt32) :
    (bits >>> 24).toNat = bits.toNat / 2 ^ 24 ∧ (bits &&& 0x00ffffff).toNat = bits.toNat % 2 ^ 24 :=
  ⟨UInt32.toNat_shiftRight_of_lt _ _ (by decide), UInt32.toNat_and_low24 bits⟩

private theorem toNat_mantissa_shifted (mantissa : UInt32) {shift : Nat} (hs : shift ≤ 3) :
    (mantissa <<< UInt32.ofNat (8 * shift)).toNat = mantissa.toNat * 256 ^ shift % 2 ^ 32 := by
  rw [UInt32.toNat_shiftLeft_of_lt _ _ (by show (8 * shift) % 2 ^ 32 < 32; omega)]
  show mantissa.toNat * 2 ^ ((8 * shift) % 2 ^ 32) % 2 ^ 32 = _
  have h8 : 8 * shift % 2 ^ 32 = 8 * shift := Nat.mod_eq_of_lt (by omega)
  rw [h8, Nat.pow_mul]

theorem length_targetFromBits (bits : UInt32) : (targetFromBits bits).length = 32 := by
  simp only [targetFromBits]
  split
  · exact length_copyFromSlice (by simp; omega)
  · split
    · exact length_copyFromSlice (by simp)
    · exact List.length_replicate _ _

theorem ofBeBytes_targetFromBits (bits : UInt32) :
    ofBeBytes (targetFromBits bits) =
      if bits.toNat / 2 ^ 24 ≤ 3 then
        bits.toNat % 2 ^ 24 * 256 ^ (3 - bits.toNat / 2 ^ 24) % 2 ^ 32 / 256 ^ (bits.toNat / 2 ^ 24 + 1)
      else if bits.toNat / 2 ^ 24 - 3 < 29 then bits.toNat % 2 ^ 24 * 256 ^ (bits.toNat / 2 ^ 24 - 3)
      else 0 := by
  obtain ⟨he, hm⟩ := exponent_mantissa bits
  simp only [targetFromBits, he]
  split
  · next h =>
    rw [ofBeBytes_copyFromSlice_zero, UInt32.ofBeBytes_take_toBeBytes _ (by omega),
      toNat_mantissa_shifted _ (by omega), hm, List.length_take, UInt32.length_toBeBytes,
      show 32 - (32 - (3 - bits.toNat / 2 ^ 24) + min (3 - bits.toNat / 2 ^ 24) 4) = 0 by omega,
      show 4 - (3 - bits.toNat / 2 ^ 24) = bits.toNat / 2 ^ 24 + 1 by omega, Nat.pow_zero,
      Nat.mul_one]
  · split
    · rw [ofBeBytes_copyFromSlice_zero, UInt32.ofBeBytes_toBeBytes, hm, UInt32.length_toBeBytes,
        show 32 - (32 - 4 - (bits.toNat / 2 ^ 24 - 3) + 4) = bits.toNat / 2 ^ 24 - 3 by omega]
    · exact ofBeBytes_replicate_zero 32

theorem ofBeBytes_targetFromBits_lt (bits : UInt32) : ofBeBytes (targetFromBits bits) < 2 ^ 248 := by
  rw [ofBeBytes_targetFromBits]
  split
  · calc _ ≤ bits.toNat % 2 ^ 24 * 256 ^ (3 - bits.toNat / 2 ^ 24) % 2 ^ 32 := Nat.div_le_self _ _
      _ < 2 ^ 32 := Nat.mod_lt _ (Nat.two_pow_pos 32)
      _ ≤ 2 ^ 248 := Nat.pow_le_pow_right (by decide) (by decide)
  · split
    · calc bits.toNat % 2 ^ 24 * 256 ^ (bits.toNat / 2 ^ 24 - 3)
          < 2 ^ 24 * 256 ^ (bits.toNat / 2 ^ 24 - 3) :=
            Nat.mul_lt_mul_of_pos_right (Nat.mod_lt _ (Nat.two_pow_pos 24)) (Nat.pos_pow_of_pos _ (by decide))
        _ ≤ 2 ^ 24 * 256 ^ 28 := Nat.mul_le_mul_left _ (Nat.pow_le_pow_right (by decide) (by omega))
        _ = 2 ^ 248 := rfl
    · exact Nat.two_pow_pos 248

/-- With exponent 3 and mantissa 1 the target is `1 / 2 ^ 0 = 1`, but `target_from_bits`
copies no byte and returns zero. -/
theorem targetFromBits_exponent_three :
    ofBeBytes (targetFromBits 0x03000001) = 0 ∧
      (0x03000001 : UInt32).toNat % 2 ^ 24 / 2 ^ (8 * (3 - (0x03000001 : UInt32).toNat / 2 ^ 24)) = 1 := by
  decide

/-- What `from_compact_target_bits` computes: zero for an exponent of at most 3, since
the bytes it copies are the low bytes of a mantissa shifted left by as many bytes. -/
theorem ofBeBytes_fromCompactTargetBits (bits : UInt32) :
    ofBeBytes (Uint256.fromCompactTargetBits bits).bytes =
      if bits.toNat / 2 ^ 24 ≤ 3 then 0
      else if bits.toNat / 2 ^ 24 - 3 < 29 then bits.toNat % 2 ^ 24 * 256 ^ (bits.toNat / 2 ^ 24 - 3)
      else 0 := by
  obtain ⟨he, hm⟩ := exponent_mantissa bits
  simp only [Uint256.fromCompactTargetBits, he]
  split
  · next h =>
    have hdvd : 256 ^ (3 - bits.toNat / 2 ^ 24) ∣ 2 ^ 32 :=
      ⟨256 ^ (bits.toNat / 2 ^ 24 + 1), by rw [show (2 : Nat) ^ 32 = 256 ^ 4 by rfl, ← Nat.pow_add]; congr 1; omega⟩
    dsimp only
    rw [ofBeBytes_copyFromSlice_zero, UInt32.ofBeBytes_drop_toBeBytes _ (by omega),
      toNat_mantissa_shifted _ (by omega), Nat.mod_mod_of_dvd _ hdvd, Nat.mul_mod_left, Nat.zero_mul]
  · split
    · dsimp only
      rw [ofBeBytes_copyFromSlice_zero, UInt32.ofBeBytes_toBeBytes, hm, UInt32.length_toBeBytes,
        show 32 - (32 - 4 - (bits.toNat / 2 ^ 24 - 3) + 4) = bits.toNat / 2 ^ 24 - 3 by omega]
    · exact ofBeBytes_replicate_zero 32

/-- With exponent 2 and mantissa `0x010000` the decoders disagree: `target_from_bits`
ends in the byte 1, `from_compact_target_bits` is zero, and the target is `0x0100`. -/
theorem fromCompactTargetBits_ne_targetFromBits :
    (Uint256.fromCompactTargetBits 0x02010000).bytes ≠ targetFromBits 0x02010000 ∧
      ofBeBytes (targetFromBits 0x02010000) = 1 ∧
      ofBeBytes (Uint256.fromCompactTargetBits 0x02010000).bytes = 0 := by
  decide

/-! ## Meeting a target -/

/-- `hashing::meets_target`: `hash.as_bytes() < target`, the lexicographic order of
byte arrays. -/
def meetsTarget (hash : Hash) (target : List UInt8) : Bool :=
  decide (List.Lex (· < ·) hash.asBytes target)

private theorem lead_digit_lt_iff {x y p a b : Nat} (ha : a < p) (hb : b < p) :
    x * p + a < y * p + b ↔ x < y ∨ x = y ∧ a < b := by
  constructor
  · intro h
    rcases Nat.lt_trichotomy x y with hxy | rfl | hxy
    · exact .inl hxy
    · exact .inr ⟨rfl, by omega⟩
    · have := Nat.mul_le_mul_right p (Nat.succ_le_of_lt hxy)
      rw [Nat.succ_mul] at this
      omega
  · rintro (hxy | ⟨rfl, hab⟩)
    · have := Nat.mul_le_mul_right p (Nat.succ_le_of_lt hxy)
      rw [Nat.succ_mul] at this
      omega
    · omega

theorem lex_lt_iff_ofBeBytes_lt : ∀ {a b : List UInt8}, a.length = b.length →
    (List.Lex (· < ·) a b ↔ ofBeBytes a < ofBeBytes b)
  | [], [], _ => by simp [ofBeBytes, ofLeBytes]
  | x :: a, y :: b, h => by
    have hlen : a.length = b.length := Nat.succ.inj h
    have ha := ofBeBytes_lt a
    rw [hlen] at ha
    rw [ofBeBytes_cons, ofBeBytes_cons, hlen, lead_digit_lt_iff ha (ofBeBytes_lt b),
      ← lex_lt_iff_ofBeBytes_lt hlen]
    constructor
    · intro hlex
      cases hlex with
      | cons hlex => exact .inr ⟨rfl, hlex⟩
      | rel hxy => exact .inl hxy
    · rintro (hxy | ⟨hxy, hlex⟩)
      · exact .rel hxy
      · cases UInt8.toNat.inj hxy
        exact .cons hlex

theorem meetsTarget_iff (hash : Hash) (bits : UInt32) :
    meetsTarget hash (targetFromBits bits) = true ↔
      ofBeBytes hash.asBytes < ofBeBytes (targetFromBits bits) := by
  rw [meetsTarget, decide_eq_true_iff]
  exact lex_lt_iff_ofBeBytes_lt (by rw [Hash.length_asBytes, length_targetFromBits])

/-- For every compact target, the hash whose bytes are the target's does not meet it,
though it is not above it. -/
theorem meetsTarget_target_self (bits : UInt32) :
    ofBeBytes (Hash.mk (targetFromBits bits) (length_targetFromBits bits)).asBytes ≤
      ofBeBytes (targetFromBits bits) ∧
    meetsTarget ⟨targetFromBits bits, length_targetFromBits bits⟩ (targetFromBits bits) = false := by
  refine ⟨Nat.le_refl _, ?_⟩
  rw [← Bool.not_eq_true, meetsTarget_iff]
  exact Nat.lt_irrefl _

end Jiopad
