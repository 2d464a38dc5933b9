import Jiopad.Hashes

/-!
# The hasher of block-hash maps

`BlockHashMap` and `BlockHashSet` hash their keys with `BlockHasher`, a `u64` that
`write_u64` overwrites and `finish` returns; `write` of a byte slice keeps its last
eight bytes, or the whole slice in the high bytes of a zeroed word when it is
shorter.  `Hash` feeds a hasher its four little-endian lanes with `write_u64`, so
the hasher of a map keeps the last lane: two hashes fall on one `u64` exactly when
their bytes 24 to 31 agree, whatever the other 24 bytes are.
-/

namespace Jiopad

structure BlockHasher where
  state : UInt64
  deriving DecidableEq

namespace BlockHasher

def new : BlockHasher := ⟨0⟩

def finish (hasher : BlockHasher) : UInt64 := hasher.state

def writeU64 (_hasher : BlockHasher) (v : UInt64) : BlockHasher := ⟨v⟩

/-- `Hasher::write`: the last eight bytes as a little-endian `u64`, or a shorter slice
copied into bytes `8 - len` to `7` of a zeroed buffer. -/
def write (hasher : BlockHasher) (bytes : List UInt8) : BlockHasher :=
  if 8 ≤ bytes.length then hasher.writeU64 (UInt64.fromLeBytes (bytes.drop (bytes.length - 8)))
  else hasher.writeU64 (UInt64.fromLeBytes (List.replicate (8 - bytes.length) 0 ++ bytes))

end BlockHasher

/-- `impl std::hash::Hash for Hash`: `write_u64` of each of the four lanes, in order. -/
def Hash.hashInto (h : Hash) (hasher : BlockHasher) : BlockHasher :=
  ((List.finRange 4).map h.asLeU64).foldl BlockHasher.writeU64 hasher

namespace BlockHasher

theorem finish_foldl_writeU64 (hasher : BlockHasher) (vs : List UInt64) (v : UInt64) :
    ((vs ++ [v]).foldl writeU64 hasher).finish = v := by
  rw [List.foldl_append]
  rfl

theorem finish_hashInto (h : Hash) (hasher : BlockHasher) : (h.hashInto hasher).finish = h.asLeU64 3 :=
  finish_foldl_writeU64 hasher [h.asLeU64 0, h.asLeU64 1, h.asLeU64 2] (h.asLeU64 3)

example : ((Hash.fromLeU64 fun i => UInt64.ofNat (i + 1)).hashInto new).finish = 4 := by decide

/-- The `u64` a block-hash map computes for a key is determined by its bytes 24 to 31,
and determines them. -/
theorem finish_hashInto_eq_iff (h h' : Hash) :
    (h.hashInto new).finish = (h'.hashInto new).finish ↔ h.asBytes.drop 24 = h'.asBytes.drop 24 := by
  have hlast : ∀ g : Hash, g.asBytes.drop 24 = (g.asLeU64 3).toLeBytes := fun g => by
    rw [Hash.asLeU64_toLeBytes, List.take_of_length_le (by simp [g.length_bytes]; decide)]
    rfl
  rw [finish_hashInto, finish_hashInto, hlast, hlast]
  exact ⟨congrArg _, UInt64.toLeBytes_inj⟩

end BlockHasher

end Jiopad
