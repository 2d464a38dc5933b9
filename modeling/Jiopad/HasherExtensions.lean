import Jiopad.Math

/-!
# Hasher extensions

`HasherExtensions` is written for every `Hasher` of `std` and for `BlockHash`; a hasher is
modelled as the byte strings written to it.  `write_var_bytes` writes a length and the
bytes, so sequences of calls can be read back.  `write_blue_work` skips the low-order
zero bytes of the little-endian work, not the big-endian leading zeros its doc comment
names, and the length written first still makes the encoding injective.
-/

namespace Jiopad

namespace HasherExtensions

/-! ## One implementation for both hashers, over the byte strings written -/

def writeLen (written : List (List UInt8)) (len : Nat) : List (List UInt8) :=
  written ++ [(UInt64.ofNat len).toLeBytes]

def writeVarBytes (written : List (List UInt8)) (bytes : List UInt8) : List (List UInt8) :=
  writeLen written bytes.length ++ [bytes]

/-- The bytes `write_blue_work` passes to `write_var_bytes`: `be_bytes[start..]`, where
`start` is the position of the first non-zero byte of `be_bytes`, or its length. -/
def blueWorkBytes (beBytes : List UInt8) : List UInt8 :=
  beBytes.drop ((beBytes.findIdx? (· != 0)).getD beBytes.length)

def writeBlueWork (written : List (List UInt8)) (leBytes : List UInt8) : List (List UInt8) :=
  writeVarBytes written (blueWorkBytes leBytes)

private theorem findIdx?_getD_succ (bytes : List UInt8) :
    (bytes.findIdx? (· != 0) 1).getD (bytes.length + 1) =
      (bytes.findIdx? (· != 0)).getD bytes.length + 1 := by
  rw [List.findIdx?_succ]
  cases bytes.findIdx? (· != 0) <;> rfl

theorem blueWorkBytes_eq_dropWhile (bytes : List UInt8) :
    blueWorkBytes bytes = bytes.dropWhile (· == 0) := by
  induction bytes with
  | nil => rfl
  | cons b bs ih =>
    rw [blueWorkBytes, List.findIdx?_cons, List.dropWhile_cons]
    by_cases hb : b = 0
    · simp only [hb, bne_self_eq_false, Bool.false_eq_true, if_false, beq_self_eq_true, if_true,
        Nat.zero_add, List.length_cons, findIdx?_getD_succ, List.drop_succ_cons]
      exact ih
    · simp [hb]

/-- The big-endian bytes of an integer without its leading zero bytes, from its
little-endian bytes: what the doc comment of `write_blue_work` names. -/
def bigEndianTrimmed (leBytes : List UInt8) : List UInt8 := leBytes.reverse.dropWhile (· == 0)

end HasherExtensions

open HasherExtensions

/-! ## The two hashers -/

/-- A `Hasher` of `std`, as the byte strings passed to `write`, in order. -/
structure Hasher where
  written : List (List UInt8)
  deriving DecidableEq

/-- `jio_hashes::BlockHash`, as the byte strings passed to `update`, in order. -/
structure BlockHash where
  updates : List (List UInt8)
  deriving DecidableEq

def Hasher.writeLen (h : Hasher) (len : Nat) : Hasher := ⟨HasherExtensions.writeLen h.written len⟩

def Hasher.writeVarBytes (h : Hasher) (bytes : List UInt8) : Hasher :=
  ⟨HasherExtensions.writeVarBytes h.written bytes⟩

def Hasher.writeBlueWork (h : Hasher) (work : Uint192) : Hasher :=
  ⟨HasherExtensions.writeBlueWork h.written work.toLeBytes⟩

def BlockHash.writeLen (h : BlockHash) (len : Nat) : BlockHash :=
  ⟨HasherExtensions.writeLen h.updates len⟩

def BlockHash.writeVarBytes (h : BlockHash) (bytes : List UInt8) : BlockHash :=
  ⟨HasherExtensions.writeVarBytes h.updates bytes⟩

def BlockHash.writeBlueWork (h : BlockHash) (work : UInt64) : BlockHash :=
  ⟨HasherExtensions.writeBlueWork h.updates work.toLeBytes⟩

/-- Both `write_blue_work`s write the length of the little-endian bytes from the first
non-zero one on, then those bytes.  For the work `1` they write 24 and 8 bytes
`1, 0, …, 0`, where the big-endian bytes without leading zeros are the one byte `1`. -/
theorem writeBlueWork_le_trimmed :
    (∀ (h : Hasher) (work : Uint192), h.writeBlueWork work =
      ⟨h.written ++ [(UInt64.ofNat (work.toLeBytes.dropWhile (· == 0)).length).toLeBytes,
        work.toLeBytes.dropWhile (· == 0)]⟩) ∧
    (∀ (h : BlockHash) (work : UInt64), h.writeBlueWork work =
      ⟨h.updates ++ [(UInt64.ofNat (work.toLeBytes.dropWhile (· == 0)).length).toLeBytes,
        work.toLeBytes.dropWhile (· == 0)]⟩) ∧
    (Hasher.mk []).writeBlueWork (Uint192.fromU64 1) =
      ⟨[(UInt64.ofNat 24).toLeBytes, 1 :: List.replicate 23 0]⟩ ∧
    (BlockHash.mk []).writeBlueWork 1 = ⟨[(UInt64.ofNat 8).toLeBytes, 1 :: List.replicate 7 0]⟩ ∧
    bigEndianTrimmed (Uint192.fromU64 1).toLeBytes = [1] ∧ bigEndianTrimmed (UInt64.toLeBytes 1) = [1] := by
  refine ⟨fun h work => ?_, fun h work => ?_, by decide, by decide, by decide, by decide⟩ <;>
    simp only [Hasher.writeBlueWork, BlockHash.writeBlueWork, HasherExtensions.writeBlueWork,
      HasherExtensions.writeVarBytes, HasherExtensions.writeLen, blueWorkBytes_eq_dropWhile,
      List.append_assoc, List.singleton_append]

/-! ## The other writes, and what the written bytes determine -/

namespace HasherExtensions

/-- `Hasher::write`, and `BlockHash::update`: one more byte string. -/
def write (written : List (List UInt8)) (bytes : List UInt8) : List (List UInt8) :=
  written ++ [bytes]

def writeBool (written : List (List UInt8)) (element : Bool) : List (List UInt8) :=
  write written (if element then [1] else [0])

def writeU8 (written : List (List UInt8)) (element : UInt8) : List (List UInt8) :=
  write written [element]

def writeU16 (written : List (List UInt8)) (element : UInt16) : List (List UInt8) :=
  write written element.toLeBytes

def writeU32 (written : List (List UInt8)) (element : UInt32) : List (List UInt8) :=
  write written element.toLeBytes

def writeU64 (written : List (List UInt8)) (element : UInt64) : List (List UInt8) :=
  write written element.toLeBytes

/-- `write_var_array`: the number of elements, then each element as it is, with no
length of its own. -/
def writeVarArray (written : List (List UInt8)) (arr : List (List UInt8)) : List (List UInt8) :=
  arr.foldl write (writeLen written arr.length)

def encodeVarBytes (bytes : List UInt8) : List UInt8 := (UInt64.ofNat bytes.length).toLeBytes ++ bytes

def readLen (stream : List UInt8) : Option (Nat × List UInt8) :=
  if 8 ≤ stream.length then some (ofLeBytes (stream.take 8), stream.drop 8) else none

def readVarBytes (stream : List UInt8) : Option (List UInt8 × List UInt8) :=
  match readLen stream with
  | some (n, rest) => if n ≤ rest.length then some (rest.take n, rest.drop n) else none
  | none => none

def readAllVarBytes : Nat → List UInt8 → Option (List (List UInt8))
  | _, [] => some []
  | 0, _ :: _ => none
  | fuel + 1, stream@(_ :: _) =>
    match readVarBytes stream with
    | some (bytes, rest) => (readAllVarBytes fuel rest).map (bytes :: ·)
    | none => none

theorem flatten_foldl_write (written arr : List (List UInt8)) :
    (arr.foldl write written).flatten = written.flatten ++ arr.flatten := by
  induction arr generalizing written with
  | nil => simp
  | cons d arr ih => simp [ih, write]

theorem flatten_foldl_writeVarBytes (written items : List (List UInt8)) :
    (items.foldl writeVarBytes written).flatten = written.flatten ++ items.flatMap encodeVarBytes := by
  induction items generalizing written with
  | nil => simp
  | cons b items ih => simp [ih, writeVarBytes, writeLen, encodeVarBytes]

theorem readVarBytes_encodeVarBytes {bytes : List UInt8} (h : bytes.length < 2 ^ 64)
    (rest : List UInt8) : readVarBytes (encodeVarBytes bytes ++ rest) = some (bytes, rest) := by
  have hlen : (UInt64.ofNat bytes.length).toLeBytes.length = 8 := UInt64.length_toLeBytes _
  have hn : ofLeBytes (UInt64.ofNat bytes.length).toLeBytes = bytes.length := by
    rw [UInt64.toLeBytes, ofLeBytes_leBytes]
    simp only [UInt64.toNat, UInt64.ofNat, BitVec.toNat_ofNat]
    omega
  have hread : readLen (encodeVarBytes bytes ++ rest) = some (bytes.length, bytes ++ rest) := by
    rw [readLen, if_pos (by simp [encodeVarBytes, hlen]), encodeVarBytes, List.append_assoc,
      List.take_left' hlen, List.drop_left' hlen, hn]
  simp only [readVarBytes, hread, List.length_append, Nat.le_add_right, if_true, List.take_left,
    List.drop_left]

theorem readAllVarBytes_flatMap (items : List (List UInt8)) (h : ∀ b ∈ items, b.length < 2 ^ 64)
    {fuel : Nat} (hfuel : items.length ≤ fuel) :
    readAllVarBytes fuel (items.flatMap encodeVarBytes) = some items := by
  induction items generalizing fuel with
  | nil => cases fuel <;> rfl
  | cons b items ih =>
    obtain ⟨fuel, rfl⟩ : ∃ f, fuel = f + 1 := ⟨fuel - 1, by simp at hfuel; omega⟩
    have hne : encodeVarBytes b ++ items.flatMap encodeVarBytes ≠ [] := by
      simp [encodeVarBytes, ← List.length_pos]
    obtain ⟨x, xs, hx⟩ := List.exists_cons_of_ne_nil hne
    rw [List.flatMap_cons, hx, readAllVarBytes, ← hx,
      readVarBytes_encodeVarBytes (h b (List.mem_cons_self _ _))]
    dsimp only
    rw [ih (fun b' hb' => h b' (List.mem_cons_of_mem _ hb')) (by simpa using hfuel)]
    rfl

/-- The bytes a sequence of `write_var_bytes` calls writes determine the sequence:
each byte string carries its length, below `2 ^ 64`. -/
theorem writeVarBytes_injective {items items' : List (List UInt8)}
    (h : ∀ b ∈ items, b.length < 2 ^ 64) (h' : ∀ b ∈ items', b.length < 2 ^ 64)
    (heq : (items.foldl writeVarBytes []).flatten = (items'.foldl writeVarBytes []).flatten) :
    items = items' := by
  rw [flatten_foldl_writeVarBytes, flatten_foldl_writeVarBytes, List.flatten_nil, List.nil_append,
    List.nil_append] at heq
  have hitems := @readAllVarBytes_flatMap items h (items.length + items'.length) (by omega)
  rw [heq, readAllVarBytes_flatMap items' h' (by omega)] at hitems
  exact (Option.some.inj hitems).symm

theorem writeVarBytes_injective_two :
    (∀ b ∈ [[(1 : UInt8), 2], []], b.length < 2 ^ 64) ∧
    (∀ b ∈ [[(1 : UInt8), 2], []], b.length < 2 ^ 64) ∧
    ([[(1 : UInt8), 2], []].foldl writeVarBytes []).flatten =
      ([[(1 : UInt8), 2], []].foldl writeVarBytes []).flatten ∧
    [[(1 : UInt8), 2], []] = [[1, 2], []] :=
  have h : ∀ b ∈ [[(1 : UInt8), 2], []], b.length < 2 ^ 64 := by decide
  ⟨h, h, rfl, writeVarBytes_injective h h rfl⟩

theorem eq_of_flatten_eq {w : Nat} {arr arr' : List (List UInt8)} (hw : ∀ d ∈ arr, d.length = w)
    (hw' : ∀ d ∈ arr', d.length = w) (hlen : arr.length = arr'.length)
    (h : arr.flatten = arr'.flatten) : arr = arr' := by
  induction arr generalizing arr' with
  | nil => exact (List.length_eq_zero.mp hlen.symm).symm
  | cons d arr ih =>
    obtain ⟨d', arr', rfl⟩ := List.exists_cons_of_length_eq_add_one hlen.symm
    rw [List.flatten_cons, List.flatten_cons] at h
    obtain ⟨hd, hrest⟩ := List.append_inj h ((hw d (List.mem_cons_self _ _)).trans
      (hw' d' (List.mem_cons_self _ _)).symm)
    rw [hd, ih (fun x hx => hw x (List.mem_cons_of_mem _ hx)) (fun x hx => hw' x (List.mem_cons_of_mem _ hx))
      (by simpa using hlen) hrest]

/-- `write_var_array` writes the number of elements and then the elements with no length
of their own: arrays of elements of one common length, such as hashes, are determined by
the bytes written, fewer than `2 ^ 64` of them. -/
theorem writeVarArray_injective {w : Nat} {arr arr' : List (List UInt8)}
    (hw : ∀ d ∈ arr, d.length = w) (hw' : ∀ d ∈ arr', d.length = w)
    (hlen : arr.length < 2 ^ 64) (hlen' : arr'.length < 2 ^ 64)
    (heq : (writeVarArray [] arr).flatten = (writeVarArray [] arr').flatten) : arr = arr' := by
  simp only [writeVarArray, flatten_foldl_write, writeLen, List.nil_append, List.flatten_singleton]
    at heq
  obtain ⟨hcount, hbytes⟩ := List.append_inj heq (by simp)
  have hcount := congrArg UInt64.toNat (UInt64.toLeBytes_inj hcount)
  simp only [UInt64.toNat, UInt64.ofNat, BitVec.toNat_ofNat, Nat.mod_eq_of_lt hlen,
    Nat.mod_eq_of_lt hlen'] at hcount
  exact eq_of_flatten_eq hw hw' hcount hbytes

theorem writeVarArray_injective_hashes :
    (∀ d ∈ [List.replicate 32 (1 : UInt8), List.replicate 32 2], d.length = 32) ∧
    (∀ d ∈ [List.replicate 32 (1 : UInt8), List.replicate 32 2], d.length = 32) ∧
    [List.replicate 32 (1 : UInt8), List.replicate 32 2].length < 2 ^ 64 ∧
    [List.replicate 32 (1 : UInt8), List.replicate 32 2].length < 2 ^ 64 ∧
    (writeVarArray [] [List.replicate 32 1, List.replicate 32 2]).flatten =
      (writeVarArray [] [List.replicate 32 1, List.replicate 32 2]).flatten ∧
    [List.replicate 32 (1 : UInt8), List.replicate 32 2] = [List.replicate 32 1, List.replicate 32 2] :=
  have hw : ∀ d ∈ [List.replicate 32 (1 : UInt8), List.replicate 32 2], d.length = 32 := by decide
  have hlen : [List.replicate 32 (1 : UInt8), List.replicate 32 2].length < 2 ^ 64 := by decide
  ⟨hw, hw, hlen, hlen, rfl, writeVarArray_injective hw hw hlen hlen rfl⟩

/-- Elements of different lengths are not framed: `[[1], [2]]` and `[[1, 2], []]` write
the same bytes. -/
example : (writeVarArray [] [[1], [2]]).flatten = (writeVarArray [] [[1, 2], []]).flatten := by
  decide

/-! ## What `write_blue_work` determines -/

theorem eq_replicate_append_dropWhile (bytes : List UInt8) :
    bytes = List.replicate (bytes.length - (bytes.dropWhile (· == 0)).length) 0 ++
      bytes.dropWhile (· == 0) := by
  have hsplit := List.takeWhile_append_dropWhile (· == 0) bytes
  have hzeros : bytes.takeWhile (· == 0) = List.replicate (bytes.takeWhile (· == 0)).length 0 :=
    List.eq_replicate_iff.mpr ⟨rfl, fun b hb => by simpa using List.mem_takeWhile_imp hb⟩
  have hlen := congrArg List.length hsplit
  rw [List.length_append] at hlen
  calc bytes = bytes.takeWhile (· == 0) ++ bytes.dropWhile (· == 0) := hsplit.symm
    _ = _ := by rw [hzeros, show (bytes.takeWhile (· == 0)).length =
      bytes.length - (bytes.dropWhile (· == 0)).length by omega]

theorem eq_of_dropWhile_eq {bytes bytes' : List UInt8} (hlen : bytes.length = bytes'.length)
    (h : bytes.dropWhile (· == 0) = bytes'.dropWhile (· == 0)) : bytes = bytes' := by
  rw [eq_replicate_append_dropWhile bytes, eq_replicate_append_dropWhile bytes', hlen, h]

theorem eq_of_writeBlueWork_flatten_eq {written : List (List UInt8)} {leBytes leBytes' : List UInt8}
    (hlen : leBytes.length = leBytes'.length) (h64 : leBytes.length < 2 ^ 64)
    (h : (writeBlueWork written leBytes).flatten = (writeBlueWork written leBytes').flatten) :
    leBytes = leBytes' := by
  have hshort (bytes : List UInt8) (hb : bytes.length < 2 ^ 64) :
      (blueWorkBytes bytes).length < 2 ^ 64 := by
    rw [blueWorkBytes_eq_dropWhile]
    exact lt_of_le_of_lt (List.dropWhile_suffix _).length_le hb
  have henc : encodeVarBytes (blueWorkBytes leBytes) = encodeVarBytes (blueWorkBytes leBytes') := by
    simpa [writeBlueWork, writeVarBytes, writeLen, encodeVarBytes] using h
  have hread := readVarBytes_encodeVarBytes (hshort leBytes h64) []
  rw [henc, readVarBytes_encodeVarBytes (hshort leBytes' (hlen ▸ h64))] at hread
  exact eq_of_dropWhile_eq hlen (by
    simpa only [blueWorkBytes_eq_dropWhile] using (Prod.mk.inj (Option.some.inj hread)).1.symm)

end HasherExtensions

def Hasher.writeVarArray (h : Hasher) (arr : List (List UInt8)) : Hasher :=
  ⟨HasherExtensions.writeVarArray h.written arr⟩

def BlockHash.writeVarArray (h : BlockHash) (arr : List (List UInt8)) : BlockHash :=
  ⟨HasherExtensions.writeVarArray h.updates arr⟩

/-- `write_blue_work` trims the low-order zero bytes, but the length it writes first
tells how many there were: after the same bytes, two different works, a `Uint192` for
every `Hasher` and a `u64` for `BlockHash`, never write the same bytes. -/
theorem writeBlueWork_injective (written : List (List UInt8)) :
    Function.Injective (fun work : Uint192 => ((Hasher.mk written).writeBlueWork work).written.flatten) ∧
    Function.Injective (fun work : UInt64 => ((BlockHash.mk written).writeBlueWork work).updates.flatten) :=
  ⟨fun _ _ h => Uint192.toLeBytes_inj (eq_of_writeBlueWork_flatten_eq (by simp) (by simp) h),
    fun _ _ h => UInt64.toLeBytes_inj (eq_of_writeBlueWork_flatten_eq (by simp) (by simp) h)⟩

end Jiopad
