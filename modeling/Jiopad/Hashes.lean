import Mathlib.Data.List.Basic
import Mathlib.Data.Fin.Basic
import Mathlib.Tactic.FinCases

/-!
# Hashes and little-endian byte encodings

`Hash` is the 32-byte digest of `jio_hashes`.  Its lane view `asLeU64` reads the
bytes as four little-endian `u64`s and `fromLeU64` writes four lanes back; the
MuHash placeholder of consensus-core combines hashes lane by lane through these
two maps.  The fixed-width little-endian encodings of the integer types
(`to_le_bytes`, `from_le_bytes`) are defined once, for a byte count.
-/

namespace Jiopad

/-- The `width` little-endian bytes carrying the low `8 * width` bits of `x`. -/
def leBytes : Nat → Nat → List UInt8
  | 0, _ => []
  | width + 1, x => UInt8.ofNat x :: leBytes width (x / 256)

def ofLeBytes : List UInt8 → Nat
  | [] => 0
  | b :: bs => b.toNat + 256 * ofLeBytes bs

@[simp] theorem length_leBytes (width x : Nat) : (leBytes width x).length = width := by
  induction width generalizing x <;> simp [leBytes, *]

@[simp] theorem toNat_uint8_ofNat (n : Nat) : (UInt8.ofNat n).toNat = n % 256 := by
  simp [UInt8.toNat, UInt8.ofNat]

@[simp] theorem toNat_uint64_ofNat (n : Nat) : (UInt64.ofNat n).toNat = n % 2 ^ 64 := by
  simp only [UInt64.toNat, UInt64.ofNat, BitVec.toNat_ofNat]

theorem toNat_uint64_add (a b : UInt64) : (a + b).toNat = (a.toNat + b.toNat) % 2 ^ 64 := rfl

theorem toNat_uint64_mul (a b : UInt64) : (a * b).toNat = (a.toNat * b.toNat) % 2 ^ 64 := rfl

/-! `u64` arithmetic as a debug build runs it: where `+` or `*` overflows the program
panics, which these return as `none`; a release build wraps, as core's `+` and `*` do. -/

/-- A value computed exactly, held as a `u64`: `none` where it does not fit. -/
def u64OfNat (n : Nat) : Option UInt64 := if n < 2 ^ 64 then some (UInt64.ofNat n) else none

def u64Add (a b : UInt64) : Option UInt64 := if a.toNat + b.toNat < 2 ^ 64 then some (a + b) else none

def u64Mul (a b : UInt64) : Option UInt64 := if a.toNat * b.toNat < 2 ^ 64 then some (a * b) else none

theorem u64Add_eq (a b : UInt64) : u64Add a b = u64OfNat (a.toNat + b.toNat) := by
  unfold u64Add u64OfNat
  split
  · next h => exact congrArg some (UInt64.toNat.inj (by rw [toNat_uint64_add, toNat_uint64_ofNat]))
  · rfl

theorem u64OfNat_of_lt {n : Nat} (h : n < 2 ^ 64) : u64OfNat n = some (UInt64.ofNat n) := if_pos h

theorem u64Add_of_lt {a b : UInt64} (h : a.toNat + b.toNat < 2 ^ 64) : u64Add a b = some (a + b) :=
  if_pos h

theorem u64Mul_of_lt {a b : UInt64} (h : a.toNat * b.toNat < 2 ^ 64) : u64Mul a b = some (a * b) :=
  if_pos h

theorem u64OfNat_toNat (x : UInt64) : u64OfNat x.toNat = some x := by
  rw [u64OfNat_of_lt x.toNat_lt_size]
  exact congrArg some (UInt64.toNat.inj ((toNat_uint64_ofNat _).trans (Nat.mod_eq_of_lt x.toNat_lt_size)))

theorem ofLeBytes_leBytes (width x : Nat) : ofLeBytes (leBytes width x) = x % 256 ^ width := by
  induction width generalizing x with
  | zero => simp [leBytes, ofLeBytes, Nat.mod_one]
  | succ width ih =>
    rw [leBytes, ofLeBytes, ih, toNat_uint8_ofNat, Nat.pow_succ, Nat.mul_comm _ 256, Nat.mod_mul]

theorem ofLeBytes_lt (bs : List UInt8) : ofLeBytes bs < 256 ^ bs.length := by
  induction bs with
  | nil => simp [ofLeBytes]
  | cons b bs ih =>
    have hb : b.toNat < 256 := b.toNat_lt_size
    simp only [ofLeBytes, List.length_cons, Nat.pow_succ]
    omega

theorem leBytes_ofLeBytes (bs : List UInt8) : leBytes bs.length (ofLeBytes bs) = bs := by
  induction bs with
  | nil => rfl
  | cons b bs ih =>
    have hb : b.toNat < 256 := b.toNat_lt_size
    have hdiv : (b.toNat + 256 * ofLeBytes bs) / 256 = ofLeBytes bs := by omega
    have hmod : UInt8.ofNat (b.toNat + 256 * ofLeBytes bs) = b :=
      UInt8.toNat.inj (by simp; omega)
    simp only [List.length_cons, leBytes, ofLeBytes, hdiv, hmod, ih]

theorem ofLeBytes_append (xs ys : List UInt8) :
    ofLeBytes (xs ++ ys) = ofLeBytes xs + 256 ^ xs.length * ofLeBytes ys := by
  induction xs with
  | nil => simp [ofLeBytes]
  | cons b xs ih =>
    rw [List.cons_append, ofLeBytes, ofLeBytes, ih, List.length_cons, Nat.pow_succ, Nat.mul_add,
      Nat.add_assoc, Nat.mul_assoc, Nat.mul_left_comm 256]

theorem leBytes_add (a b x : Nat) : leBytes (a + b) x = leBytes a x ++ leBytes b (x / 256 ^ a) := by
  induction a generalizing x with
  | zero => simp [leBytes]
  | succ a ih =>
    rw [Nat.add_right_comm, leBytes, ih, leBytes, List.cons_append, Nat.div_div_eq_div_mul,
      Nat.pow_succ, Nat.mul_comm (256 ^ a)]

def ofBeBytes (bs : List UInt8) : Nat := ofLeBytes bs.reverse

theorem ofBeBytes_append (xs ys : List UInt8) :
    ofBeBytes (xs ++ ys) = ofBeBytes xs * 256 ^ ys.length + ofBeBytes ys := by
  rw [ofBeBytes, List.reverse_append, ofLeBytes_append, List.length_reverse, Nat.add_comm,
    Nat.mul_comm]
  rfl

theorem ofBeBytes_cons (b : UInt8) (bs : List UInt8) :
    ofBeBytes (b :: bs) = b.toNat * 256 ^ bs.length + ofBeBytes bs := by
  rw [← List.singleton_append, ofBeBytes_append]
  simp [ofBeBytes, ofLeBytes]

theorem ofBeBytes_lt (bs : List UInt8) : ofBeBytes bs < 256 ^ bs.length := by
  rw [ofBeBytes, ← List.length_reverse bs]
  exact ofLeBytes_lt _

@[simp] theorem ofBeBytes_replicate_zero (n : Nat) : ofBeBytes (List.replicate n 0) = 0 := by
  induction n with
  | zero => rfl
  | succ n ih =>
    rw [List.replicate_succ', ofBeBytes_append, ih]
    rfl

theorem ofBeBytes_reverse_leBytes (width x : Nat) :
    ofBeBytes (leBytes width x).reverse = x % 256 ^ width := by
  rw [ofBeBytes, List.reverse_reverse, ofLeBytes_leBytes]

/-- `dst[start..start + src.len()].copy_from_slice(src)`. -/
def copyFromSlice (dst : List UInt8) (start : Nat) (src : List UInt8) : List UInt8 :=
  dst.take start ++ src ++ dst.drop (start + src.length)

theorem length_copyFromSlice {dst : List UInt8} {start : Nat} {src : List UInt8}
    (h : start + src.length ≤ dst.length) : (copyFromSlice dst start src).length = dst.length := by
  simp only [copyFromSlice, List.length_append, List.length_take, List.length_drop]
  omega

theorem ofBeBytes_copyFromSlice_zero (n start : Nat) (src : List UInt8) :
    ofBeBytes (copyFromSlice (List.replicate n 0) start src) =
      ofBeBytes src * 256 ^ (n - (start + src.length)) := by
  rw [copyFromSlice, List.take_replicate, List.drop_replicate, ofBeBytes_append, ofBeBytes_append,
    ofBeBytes_replicate_zero, ofBeBytes_replicate_zero, List.length_replicate]
  simp

theorem leBytes_inj {width x y : Nat} (hx : x < 256 ^ width) (hy : y < 256 ^ width)
    (h : leBytes width x = leBytes width y) : x = y := by
  have := congrArg ofLeBytes h
  rwa [ofLeBytes_leBytes, ofLeBytes_leBytes, Nat.mod_eq_of_lt hx, Nat.mod_eq_of_lt hy] at this

end Jiopad

def UInt16.toLeBytes (x : UInt16) : List UInt8 := Jiopad.leBytes 2 x.toNat

def UInt32.toLeBytes (x : UInt32) : List UInt8 := Jiopad.leBytes 4 x.toNat

def UInt32.toBeBytes (x : UInt32) : List UInt8 := (Jiopad.leBytes 4 x.toNat).reverse

@[simp] theorem UInt32.length_toBeBytes (x : UInt32) : x.toBeBytes.length = 4 := by
  simp [UInt32.toBeBytes]

theorem UInt32.ofBeBytes_toBeBytes (x : UInt32) : Jiopad.ofBeBytes x.toBeBytes = x.toNat := by
  rw [UInt32.toBeBytes, Jiopad.ofBeBytes_reverse_leBytes]
  exact Nat.mod_eq_of_lt x.toNat_lt_size

theorem UInt32.ofBeBytes_take_toBeBytes (x : UInt32) {s : Nat} (hs : s ≤ 4) :
    Jiopad.ofBeBytes (x.toBeBytes.take s) = x.toNat / 256 ^ (4 - s) := by
  have hsplit : Jiopad.leBytes 4 x.toNat =
      Jiopad.leBytes (4 - s) x.toNat ++ Jiopad.leBytes s (x.toNat / 256 ^ (4 - s)) := by
    rw [← Jiopad.leBytes_add, Nat.sub_add_cancel hs]
  have hlt : x.toNat / 256 ^ (4 - s) < 256 ^ s := by
    rw [Nat.div_lt_iff_lt_mul (Nat.pos_pow_of_pos _ (by decide)), ← Nat.pow_add,
      Nat.add_sub_cancel' hs]
    exact x.toNat_lt_size
  rw [UInt32.toBeBytes, hsplit, List.reverse_append, List.take_left' (by simp),
    Jiopad.ofBeBytes_reverse_leBytes, Nat.mod_eq_of_lt hlt]

theorem UInt32.ofBeBytes_drop_toBeBytes (x : UInt32) {s : Nat} (hs : s ≤ 4) :
    Jiopad.ofBeBytes (x.toBeBytes.drop (4 - s)) = x.toNat % 256 ^ s := by
  have hsplit : Jiopad.leBytes 4 x.toNat =
      Jiopad.leBytes s x.toNat ++ Jiopad.leBytes (4 - s) (x.toNat / 256 ^ s) := by
    rw [← Jiopad.leBytes_add, Nat.add_sub_cancel' hs]
  rw [UInt32.toBeBytes, hsplit, List.reverse_append, List.drop_left' (by simp),
    Jiopad.ofBeBytes_reverse_leBytes]

def UInt64.toLeBytes (x : UInt64) : List UInt8 := Jiopad.leBytes 8 x.toNat

def UInt64.fromLeBytes (bytes : List UInt8) : UInt64 := UInt64.ofNat (Jiopad.ofLeBytes bytes)

@[simp] theorem UInt16.length_toLeBytes (x : UInt16) : x.toLeBytes.length = 2 := by
  simp [UInt16.toLeBytes]

@[simp] theorem UInt32.length_toLeBytes (x : UInt32) : x.toLeBytes.length = 4 := by
  simp [UInt32.toLeBytes]

@[simp] theorem UInt64.length_toLeBytes (x : UInt64) : x.toLeBytes.length = 8 := by
  simp [UInt64.toLeBytes]

theorem UInt16.toLeBytes_inj {x y : UInt16} (h : x.toLeBytes = y.toLeBytes) : x = y :=
  UInt16.toNat.inj (Jiopad.leBytes_inj x.toNat_lt_size y.toNat_lt_size h)

theorem UInt32.toLeBytes_inj {x y : UInt32} (h : x.toLeBytes = y.toLeBytes) : x = y :=
  UInt32.toNat.inj (Jiopad.leBytes_inj x.toNat_lt_size y.toNat_lt_size h)

theorem UInt64.toLeBytes_inj {x y : UInt64} (h : x.toLeBytes = y.toLeBytes) : x = y :=
  UInt64.toNat.inj (Jiopad.leBytes_inj x.toNat_lt_size y.toNat_lt_size h)

@[simp] theorem UInt32.ofNat_toNat (x : UInt32) : UInt32.ofNat x.toNat = x :=
  UInt32.toNat.inj (UInt32.toNat_ofNat_of_lt x.toNat_lt_size)

@[simp] theorem UInt64.fromLeBytes_toLeBytes (x : UInt64) : UInt64.fromLeBytes x.toLeBytes = x :=
  UInt64.toNat.inj (by
    have hx := x.toNat_lt_size
    simp only [UInt64.fromLeBytes, UInt64.toLeBytes, Jiopad.ofLeBytes_leBytes]
    simp [UInt64.toNat, UInt64.ofNat] at *
    omega)

theorem UInt64.toLeBytes_fromLeBytes {bytes : List UInt8} (h : bytes.length = 8) :
    (UInt64.fromLeBytes bytes).toLeBytes = bytes := by
  have hlt := Jiopad.ofLeBytes_lt bytes
  rw [h] at hlt
  simp only [UInt64.toLeBytes, UInt64.fromLeBytes, UInt64.toNat, UInt64.ofNat,
    BitVec.toNat_ofNat]
  rw [Nat.mod_eq_of_lt (by simpa using hlt), ← h, Jiopad.leBytes_ofLeBytes]

/-! The order of `u64` scores, which core states only for its own comparisons. -/

theorem UInt64.le_of_lt {a b : UInt64} (h : a < b) : a ≤ b := by
  simp only [UInt64.lt_def, UInt64.le_def, BitVec.lt_def, BitVec.le_def] at *; omega

theorem UInt64.lt_of_le_of_lt {a b c : UInt64} (h₁ : a ≤ b) (h₂ : b < c) : a < c := by
  simp only [UInt64.lt_def, UInt64.le_def, BitVec.lt_def, BitVec.le_def] at *; omega

theorem UInt64.eq_zero_of_le_zero {a : UInt64} (h : a ≤ 0) : a = 0 :=
  UInt64.eq_of_toBitVec_eq (BitVec.eq_of_toNat_eq (Nat.le_zero.mp h))

namespace Jiopad

structure Hash where
  bytes : List UInt8
  length_bytes : bytes.length = 32
  deriving DecidableEq

namespace Hash

def default : Hash := ⟨List.replicate 32 0, rfl⟩

instance : Inhabited Hash := ⟨default⟩

/-- `Hash::from_slice`: the first 32 bytes of `data`, zero-padded. -/
def fromSlice (data : List UInt8) : Hash :=
  ⟨data.take 32 ++ List.replicate (32 - data.length) 0, by simp; omega⟩

def asBytes (h : Hash) : List UInt8 := h.bytes

@[simp] theorem length_asBytes (h : Hash) : h.asBytes.length = 32 := h.length_bytes

def asLeU64 (h : Hash) (i : Fin 4) : UInt64 :=
  UInt64.fromLeBytes ((h.bytes.drop (8 * i)).take 8)

def fromLeU64 (data : Fin 4 → UInt64) : Hash :=
  ⟨(data 0).toLeBytes ++ (data 1).toLeBytes ++ (data 2).toLeBytes ++ (data 3).toLeBytes,
    by simp⟩

theorem ext_bytes {h h' : Hash} (e : h.bytes = h'.bytes) : h = h' := by
  cases h; cases h'; cases e; rfl

@[simp] theorem fromSlice_asBytes (h : Hash) : fromSlice h.asBytes = h :=
  ext_bytes (by simp [fromSlice, asBytes, h.length_bytes])

theorem asBytes_fromSlice {data : List UInt8} (h : data.length = 32) : (fromSlice data).asBytes = data := by
  simp [fromSlice, asBytes, h]

@[simp] theorem asLeU64_fromLeU64 (data : Fin 4 → UInt64) : (fromLeU64 data).asLeU64 = data := by
  funext i
  fin_cases i <;>
    simp [asLeU64, fromLeU64, List.drop_append_eq_append_drop, List.take_append_eq_append_take,
      List.take_of_length_le, List.drop_of_length_le]

private theorem split_four (bs : List UInt8) (h : bs.length = 32) :
    bs = bs.take 8 ++ (bs.drop 8).take 8 ++ (bs.drop 16).take 8 ++ (bs.drop 24).take 8 := by
  have h24 : (bs.drop 24).take 8 = bs.drop 24 := List.take_of_length_le (by simp; omega)
  have e24 : bs.drop 24 = (bs.drop 16).drop 8 := by rw [List.drop_drop]
  have e16 : bs.drop 16 = (bs.drop 8).drop 8 := by rw [List.drop_drop]
  simp only [h24, List.append_assoc]
  rw [e24, List.take_append_drop, e16, List.take_append_drop, List.take_append_drop]

theorem asLeU64_toLeBytes (h : Hash) (i : Fin 4) :
    (h.asLeU64 i).toLeBytes = (h.bytes.drop (8 * i)).take 8 :=
  UInt64.toLeBytes_fromLeBytes (by have := h.length_bytes; simp; omega)

@[simp] theorem fromLeU64_asLeU64 (h : Hash) : fromLeU64 h.asLeU64 = h := by
  apply ext_bytes
  simp only [fromLeU64, asLeU64_toLeBytes]
  exact (split_four h.bytes h.length_bytes).symm

end Hash

end Jiopad
