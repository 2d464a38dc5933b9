import Jiopad.Hashes
import Mathlib.Data.BitVec

/-!
# The HeavyHash placeholders of the `pow` crate

`heavy_hash` of a matrix `Matrix::generate` builds returns its input, since bytes `i` and
`i + 32` of the matrix are equal.  `Xoshiro256` is xoshiro256**, with the source's
wrapping multiplications; its update is linear over `GF(2)` and injective, so the state
after `n` calls determines the seed, and only the seed `0` reaches the all-zero state.
-/

@[irreducible] def UInt64.rotateLeft (x : UInt64) (n : Nat) : UInt64 := ⟨x.toBitVec.rotateLeft n⟩

@[simp] theorem UInt64.toBitVec_xor (x y : UInt64) : (x ^^^ y).toBitVec = x.toBitVec ^^^ y.toBitVec :=
  rfl

@[simp] theorem UInt64.toBitVec_shiftLeft_seventeen (x : UInt64) :
    (x <<< 17).toBitVec = x.toBitVec <<< 17 :=
  rfl

@[simp] theorem UInt64.toBitVec_rotateLeft (x : UInt64) (n : Nat) :
    (x.rotateLeft n).toBitVec = x.toBitVec.rotateLeft n := by
  unfold UInt64.rotateLeft
  rfl

theorem UInt64.zero_rotateLeft (n : Nat) : (0 : UInt64).rotateLeft n = 0 := by
  refine UInt64.eq_of_toBitVec_eq ?_
  rw [UInt64.toBitVec_rotateLeft, show UInt64.toBitVec 0 = 0#64 from rfl]
  ext i
  simp [BitVec.getLsbD_rotateLeft]

theorem BitVec.xor_medial (a b c d : BitVec 64) : (a ^^^ b) ^^^ (c ^^^ d) = (a ^^^ c) ^^^ (b ^^^ d) := by
  ac_rfl

theorem BitVec.rotateLeft_xor (x y : BitVec 64) (n : Nat) :
    (x ^^^ y).rotateLeft n = x.rotateLeft n ^^^ y.rotateLeft n := by
  ext i
  simp only [BitVec.getLsbD_rotateLeft, BitVec.getLsbD_xor]
  by_cases h : (i : Nat) < n % 64 <;> simp [h]

theorem BitVec.eq_zero_of_rotateLeft_eq_zero {x : BitVec 64} {n : Nat} (h : x.rotateLeft n = 0#64) :
    x = 0#64 := by
  ext i
  by_cases hw : (i : Nat) + n % 64 < 64
  · have := congrArg (fun v => v.getLsbD ((i : Nat) + n % 64)) h
    simp only [BitVec.getLsbD_rotateLeft, BitVec.getLsbD_zero] at this
    simpa [show ¬ (i : Nat) + n % 64 < n % 64 by omega, hw] using this
  · have := congrArg (fun v => v.getLsbD ((i : Nat) + n % 64 - 64)) h
    simp only [BitVec.getLsbD_rotateLeft, BitVec.getLsbD_zero] at this
    simpa [show (i : Nat) + n % 64 - 64 < n % 64 by omega,
      show 64 - n % 64 + ((i : Nat) + n % 64 - 64) = i by omega] using this

theorem BitVec.eq_zero_of_eq_shiftLeft_seventeen {x : BitVec 64} (h : x = x <<< 17) : x = 0#64 := by
  have h68 : x <<< 68 = 0#64 := by
    ext i
    simp
    omega
  rw [show 68 = 17 + 17 + 17 + 17 from rfl, BitVec.shiftLeft_add, BitVec.shiftLeft_add,
    BitVec.shiftLeft_add, ← h, ← h, ← h, ← h] at h68
  exact h68

theorem BitVec.eq_of_xor_eq_zero {x y : BitVec 64} (h : x ^^^ y = 0#64) : x = y := by
  rw [← BitVec.xor_zero (x := x), ← BitVec.xor_self (x := y), ← BitVec.xor_assoc, h,
    BitVec.zero_xor]

namespace Jiopad

/-! ## `Matrix` -/

structure Matrix where
  data : List UInt8
  length_data : data.length = 64

namespace Matrix

def generate (prePowHash : Hash) : Matrix :=
  ⟨(List.range 64).map fun i => prePowHash.asBytes.getD (i % 32) 0, by simp⟩

def heavyHash (m : Matrix) (input : Hash) : Hash :=
  Hash.fromSlice ((List.range 32).map fun i =>
    input.asBytes.getD i 0 ^^^ m.data.getD i 0 ^^^ m.data.getD (i + 32) 0)

theorem getD_data_generate (prePowHash : Hash) {i : Nat} (hi : i < 64) :
    (generate prePowHash).data.getD i 0 = prePowHash.asBytes.getD (i % 32) 0 := by
  simp [generate, List.getD_eq_getElem?_getD, hi]

/-- `heavy_hash` of a generated matrix is the identity, for every pre-PoW hash. -/
theorem heavyHash_generate (prePowHash input : Hash) :
    (generate prePowHash).heavyHash input = input := by
  have hbytes : ((List.range 32).map fun i => input.asBytes.getD i 0 ^^^
      (generate prePowHash).data.getD i 0 ^^^ (generate prePowHash).data.getD (i + 32) 0) =
      input.asBytes := by
    refine List.ext_getElem (by simp) fun i hi _ => ?_
    have hi : i < 32 := by simpa using hi
    rw [List.getElem_map, List.getElem_range, getD_data_generate _ (by omega),
      getD_data_generate _ (by omega), show (i + 32) % 32 = i % 32 by omega,
      List.getD_eq_getElem?_getD, List.getElem?_eq_getElem (by simpa using hi), Option.getD_some]
    exact UInt8.eq_of_toBitVec_eq (by
      show _ ^^^ _ ^^^ _ = _
      rw [BitVec.xor_assoc, BitVec.xor_self, BitVec.xor_zero])
  rw [heavyHash, hbytes, Hash.fromSlice_asBytes]

end Matrix

/-! ## `Xoshiro256` -/

structure Xoshiro256 where
  s0 : UInt64
  s1 : UInt64
  s2 : UInt64
  s3 : UInt64
  deriving DecidableEq

namespace Xoshiro256

def new (seed : UInt64) : Xoshiro256 :=
  ⟨seed, seed * 0x9E3779B97F4A7C15, seed * 0xB5297A4D3C2DB1EF, seed * 0x68BC384E9F5B8D3F⟩

/-- `Xoshiro256::next`: the output and the state after the call. -/
def next (x : Xoshiro256) : UInt64 × Xoshiro256 :=
  let result := (x.s1 * 5).rotateLeft 7 * 9
  let t := x.s1 <<< 17
  let s2 := x.s2 ^^^ x.s0
  let s3 := x.s3 ^^^ x.s1
  let s1 := x.s1 ^^^ s2
  let s0 := x.s0 ^^^ s3
  let s2 := s2 ^^^ t
  let s3 := s3.rotateLeft 45
  (result, ⟨s0, s1, s2, s3⟩)

def run : Nat → Xoshiro256 → List UInt64 × Xoshiro256
  | 0, x => ([], x)
  | n + 1, x =>
    let rest := run n x.next.2
    (x.next.1 :: rest.1, rest.2)

def zero : Xoshiro256 := ⟨0, 0, 0, 0⟩

def xor (x y : Xoshiro256) : Xoshiro256 := ⟨x.s0 ^^^ y.s0, x.s1 ^^^ y.s1, x.s2 ^^^ y.s2, x.s3 ^^^ y.s3⟩

theorem ext_toBitVec {x y : Xoshiro256} (h0 : x.s0.toBitVec = y.s0.toBitVec)
    (h1 : x.s1.toBitVec = y.s1.toBitVec) (h2 : x.s2.toBitVec = y.s2.toBitVec)
    (h3 : x.s3.toBitVec = y.s3.toBitVec) : x = y := by
  cases x; cases y
  simp only [mk.injEq]
  exact ⟨UInt64.eq_of_toBitVec_eq h0, UInt64.eq_of_toBitVec_eq h1, UInt64.eq_of_toBitVec_eq h2,
    UInt64.eq_of_toBitVec_eq h3⟩

theorem xor_self (x : Xoshiro256) : xor x x = zero :=
  ext_toBitVec BitVec.xor_self BitVec.xor_self BitVec.xor_self BitVec.xor_self

theorem eq_of_xor_eq_zero {x y : Xoshiro256} (h : xor x y = zero) : x = y := by
  have h := congrArg (fun z => (z.s0.toBitVec, z.s1.toBitVec, z.s2.toBitVec, z.s3.toBitVec)) h
  simp only [xor, zero, UInt64.toBitVec_xor, Prod.mk.injEq] at h
  exact ext_toBitVec (BitVec.eq_of_xor_eq_zero h.1) (BitVec.eq_of_xor_eq_zero h.2.1)
    (BitVec.eq_of_xor_eq_zero h.2.2.1) (BitVec.eq_of_xor_eq_zero h.2.2.2)

theorem next_state (x : Xoshiro256) :
    x.next.2 = ⟨x.s0 ^^^ (x.s3 ^^^ x.s1), x.s1 ^^^ (x.s2 ^^^ x.s0), x.s2 ^^^ x.s0 ^^^ x.s1 <<< 17,
      (x.s3 ^^^ x.s1).rotateLeft 45⟩ :=
  rfl

theorem next_xor (x y : Xoshiro256) : (xor x y).next.2 = xor x.next.2 y.next.2 := by
  rw [next_state, next_state, next_state]
  refine ext_toBitVec ?_ ?_ ?_ ?_
  · simp only [xor, UInt64.toBitVec_xor]
    ac_rfl
  · simp only [xor, UInt64.toBitVec_xor]
    ac_rfl
  · simp only [xor, UInt64.toBitVec_xor]
    rw [UInt64.toBitVec_shiftLeft_seventeen, UInt64.toBitVec_shiftLeft_seventeen,
      UInt64.toBitVec_shiftLeft_seventeen, UInt64.toBitVec_xor, BitVec.shiftLeft_xor_distrib,
      BitVec.xor_medial x.s2.toBitVec, BitVec.xor_medial (x.s2.toBitVec ^^^ x.s0.toBitVec)]
  · simp only [xor, UInt64.toBitVec_xor, UInt64.toBitVec_rotateLeft]
    rw [← BitVec.rotateLeft_xor, BitVec.xor_medial x.s3.toBitVec]

theorem next_zero : zero.next.2 = zero := by
  have h := next_xor zero zero
  rwa [xor_self, xor_self] at h

theorem next_eq_zero_iff (x : Xoshiro256) : x.next.2 = zero ↔ x = zero := by
  refine ⟨fun h => ?_, by rintro rfl; exact next_zero⟩
  rw [next_state] at h
  have h := congrArg (fun z => (z.s0.toBitVec, z.s1.toBitVec, z.s2.toBitVec, z.s3.toBitVec)) h
  simp only [zero, UInt64.toBitVec_xor, UInt64.toBitVec_shiftLeft_seventeen,
    UInt64.toBitVec_rotateLeft, Prod.mk.injEq] at h
  obtain ⟨h0, h1, h2, h3⟩ := h
  have hz : UInt64.toBitVec 0 = 0#64 := rfl
  rw [hz] at h0 h1 h2 h3
  -- `s3 ^ s1` is rotated into the new `s3`, so `s3 = s1`; then `s0 = 0`, `s2 = s1`,
  -- and `s1 = s1 << 17` leaves `s1 = 0`
  have h31 := BitVec.eq_of_xor_eq_zero (BitVec.eq_zero_of_rotateLeft_eq_zero h3)
  rw [h31, BitVec.xor_self, BitVec.xor_zero] at h0
  rw [h0, BitVec.xor_zero] at h1 h2
  have h12 := BitVec.eq_of_xor_eq_zero h1
  rw [← h12] at h2
  have h1 := BitVec.eq_zero_of_eq_shiftLeft_seventeen (BitVec.eq_of_xor_eq_zero h2)
  exact ext_toBitVec h0 h1 (h12 ▸ h1) (h31.trans h1)

theorem next_injective {x y : Xoshiro256} (h : x.next.2 = y.next.2) : x = y := by
  refine eq_of_xor_eq_zero ((next_eq_zero_iff _).mp ?_)
  rw [next_xor, h, xor_self]

theorem next_zero_output : zero.next.1 = 0 := by
  show ((0 : UInt64) * 5).rotateLeft 7 * 9 = 0
  rw [show (0 : UInt64) * 5 = 0 from rfl, UInt64.zero_rotateLeft]
  rfl

theorem run_zero (n : Nat) : run n zero = (List.replicate n 0, zero) := by
  induction n with
  | zero => rfl
  | succ n ih => rw [run, next_zero, ih, next_zero_output, List.replicate_succ]

theorem run_injective (n : Nat) {x y : Xoshiro256} (h : (run n x).2 = (run n y).2) : x = y := by
  induction n generalizing x y with
  | zero => exact h
  | succ n ih => exact next_injective (ih h)

theorem run_eq_zero_iff (n : Nat) (x : Xoshiro256) : (run n x).2 = zero ↔ x = zero := by
  have hz : (run n zero).2 = zero := by rw [run_zero]
  exact ⟨fun h => run_injective n (h.trans hz.symm), fun h => h ▸ hz⟩

theorem new_eq_zero_iff (seed : UInt64) : new seed = zero ↔ seed = 0 := by
  refine ⟨fun h => congrArg s0 h, ?_⟩
  rintro rfl
  rfl

/-- From any seed, the state after `n` calls of `next` determines the seed, and is the
all-zero state exactly for the seed `0`, whose every output is `0`. -/
theorem run_new (n : Nat) :
    Function.Injective (fun seed => (run n (new seed)).2) ∧
      (∀ seed, (run n (new seed)).2 = zero ↔ seed = 0) ∧
      (run n (new 0)).1 = List.replicate n 0 := by
  refine ⟨fun a b h => ?_, fun seed => ?_, ?_⟩
  · exact congrArg s0 (run_injective n h)
  · rw [run_eq_zero_iff, new_eq_zero_iff]
  · rw [show new 0 = zero from rfl, run_zero]

end Xoshiro256

end Jiopad
