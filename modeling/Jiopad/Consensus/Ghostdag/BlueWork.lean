import Jiopad.Consensus.Ghostdag.AddBlock
import Jiopad.Consensus.Target

/-!
# Blue work

`calculate_blue_work_proper` adds 1 to a counter for each blue block and returns it
as a `Uint192`; the work `get_block_work` returns for each block, a placeholder 1,
is not used, and the comment there gives the intended work as
`2^256 / (target + 1)`.  So `add_block` returns as blue work the number of blue
blocks, whatever their difficulty; as that work is at least 256 for every compact
target, the count is at most a 256th of the work the blue blocks carry.
-/

namespace Jiopad

def Uint192.toNat (x : Uint192) : Nat := ofLeBytes x.toLeBytes

theorem Uint192.toNat_fromU64 (v : UInt64) : (Uint192.fromU64 v).toNat = v.toNat := by
  have hv : v.toNat < 256 ^ 8 := v.toNat_lt_size
  rw [toNat, toLeBytes, fromU64, ofLeBytes_append, UInt64.toLeBytes, ofLeBytes_leBytes,
    Nat.mod_eq_of_lt hv]
  rfl

/-- The work of a block of compact target `bits`, as the comment of `get_block_work`
gives it: `2^256 / (target + 1)`. -/
def blockWork (bits : UInt32) : Nat := 2 ^ 256 / (ofBeBytes (targetFromBits bits) + 1)

theorem le_blockWork (bits : UInt32) : 256 ≤ blockWork bits := by
  rw [blockWork, Nat.le_div_iff_mul_le (Nat.succ_pos _)]
  calc 256 * (ofBeBytes (targetFromBits bits) + 1)
      ≤ 256 * 2 ^ 248 := Nat.mul_le_mul_left _ (ofBeBytes_targetFromBits_lt bits)
    _ = 2 ^ 256 := rfl

def sumWork (bitsOf : Hash → UInt32) : List Hash → Nat
  | [] => 0
  | b :: blocks => blockWork (bitsOf b) + sumWork bitsOf blocks

theorem le_sumWork (bitsOf : Hash → UInt32) (blocks : List Hash) :
    blocks.length * 256 ≤ sumWork bitsOf blocks := by
  induction blocks with
  | nil => exact Nat.zero_le _
  | cons b blocks ih =>
    have := le_blockWork (bitsOf b)
    rw [sumWork, List.length_cons]
    omega

namespace GhostDag

/-- For every engine state and every block, `add_block` returns as blue work the number
of merge-set blues, modulo `2 ^ 64`, whatever their difficulty: at most a 256th of the
work `2^256 / (target + 1)` those blocks carry, for every compact target of every block. -/
theorem addBlock_blueWork_eq_length (g : GhostDag) (block : DagBlock) :
    ∃ data g', g.addBlock block = .ok (data, g') ∧
      data.blueWork.toNat = data.mergeSetBlues.length % 2 ^ 64 ∧
      ∀ bitsOf : Hash → UInt32, data.blueWork.toNat * 256 ≤ sumWork bitsOf data.mergeSetBlues := by
  obtain ⟨sp, blues, reds, -, -, hadd⟩ := g.addBlock_ok block
  have hwork : (Uint192.fromU64 (UInt64.ofNat blues.length)).toNat = blues.length % 2 ^ 64 := by
    rw [Uint192.toNat_fromU64, toNat_uint64_ofNat]
  refine ⟨_, _, hadd, hwork, fun bitsOf => ?_⟩
  dsimp only
  rw [hwork]
  have := Nat.mod_le blues.length (2 ^ 64)
  have := le_sumWork bitsOf blues
  omega

/-- Genesis `1` and a block `2` on it, both of compact target `0x1f7fffff`, of work
512: `add_block` gives `2` the selected parent `1`, of blue work 0, the one blue
block `1`, and blue work 1, where the selected parent's blue work plus the work of
the blue block and of the block is 1024. -/
theorem addBlock_blueWork_counts_blues :
    ((GhostDag.new 18).addBlocks [⟨Hash.fromSlice [1], [[]]⟩,
        ⟨Hash.fromSlice [2], [[Hash.fromSlice [1]]]⟩]).map
      (fun r => r.1.map fun d => (d.2.selectedParent, d.2.mergeSetBlues, d.2.blueWork.toNat)) =
      .ok [(Hash.default, [], 0), (Hash.fromSlice [1], [Hash.fromSlice [1]], 1)] ∧
    blockWork 0x1f7fffff = 512 ∧
    0 + sumWork (fun _ => 0x1f7fffff) [Hash.fromSlice [1]] + blockWork 0x1f7fffff = 1024 := by
  decide

end GhostDag

end Jiopad
