import Jiopad.Consensus.Block
import Jiopad.Consensus.Target
import Jiopad.Consensus.Ghostdag.AddBlock

/-!
# Mining rules

`mining_rules.rs`.  `check_proof_of_work` passes a genesis block with non-zero bits
and otherwise asks `meets_target` of the block hash and the decoded target, a strict
comparison: a hash equal to its target fails.  `validate_ghostdag_data` passes a
genesis block, needs GHOSTDAG data on any other, and looks its selected parent up
among the parents of every level, not only of level 0.  `validate_mining_rules`
runs the two in that order.  The data `GhostDag::add_block` computes for a block
always passes `validate_ghostdag_data`: both read the parents of all levels.
-/

namespace Jiopad

/-- `mining_rules::validate_ghostdag_data`; the set of parents is the parents of all
levels. -/
def validateGhostdagData (block : Block) : ConsensusResult Unit :=
  if block.isGenesis then .ok ()
  else
    match block.ghostdagData with
    | none => .error .MissingGhostDagData
    | some ghostdagData =>
      let parents := block.header.parentsByLevel.flatten
      if ghostdagData.selectedParent ∉ parents then .error .InvalidSelectedParent else .ok ()

def checkProofOfWork (sha256 : List UInt8 → List UInt8) (block : Block) : Bool :=
  let hash := block.hash sha256
  let target := targetFromBits block.header.bits
  if block.isGenesis && block.header.bits != 0 then true
  else meetsTarget hash target

def validateMiningRules (sha256 : List UInt8 → List UInt8) (block : Block) : ConsensusResult Unit :=
  if !checkProofOfWork sha256 block then .error (.MiningRuleViolation "Proof of work not satisfied")
  else validateGhostdagData block

/-! ## Proof of work -/

/-- A block passes `check_proof_of_work` exactly when it is a genesis block with
non-zero bits, or its hash, read as a big-endian number, is strictly below its
decoded target. -/
theorem checkProofOfWork_iff (sha256 : List UInt8 → List UInt8) (block : Block) :
    checkProofOfWork sha256 block = true ↔
      (block.isGenesis = true ∧ block.header.bits ≠ 0) ∨
        ofBeBytes (block.hash sha256).asBytes < ofBeBytes (targetFromBits block.header.bits) := by
  rw [← meetsTarget_iff]
  by_cases h : block.isGenesis = true ∧ block.header.bits ≠ 0
  · simp [checkProofOfWork, h.1, h.2]
  · have : (block.isGenesis && block.header.bits != 0) = false := by
      simpa [Bool.and_eq_true, bne_iff_ne] using h
    simp only [checkProofOfWork, this, if_false, Bool.false_eq_true, h, false_or]

/-! ## GHOSTDAG data -/

/-- `validate_ghostdag_data` on every block: it passes a genesis block and a block
whose GHOSTDAG data names a selected parent among the parents of any level; it fails
with `MissingGhostDagData` on a non-genesis block without data, and with
`InvalidSelectedParent` when the selected parent is in no level. -/
theorem validateGhostdagData_spec (block : Block) :
    (validateGhostdagData block = .ok () ↔
      block.isGenesis = true ∨ ∃ d, block.ghostdagData = some d ∧
        d.selectedParent ∈ block.header.parentsByLevel.flatten) ∧
    (validateGhostdagData block = .error .MissingGhostDagData ↔
      block.isGenesis = false ∧ block.ghostdagData = none) ∧
    (validateGhostdagData block = .error .InvalidSelectedParent ↔
      block.isGenesis = false ∧ ∃ d, block.ghostdagData = some d ∧
        d.selectedParent ∉ block.header.parentsByLevel.flatten) := by
  unfold validateGhostdagData
  cases hg : block.isGenesis
  · cases hd : block.ghostdagData with
    | none => simp
    | some d =>
      by_cases hp : d.selectedParent ∈ block.header.parentsByLevel.flatten <;>
        simp [-List.mem_flatten, hp]
  · simp

/-- A block with parent `1` at level 0 and `2` at level 1, whose GHOSTDAG data selects
`2`: `validate_ghostdag_data` passes it. -/
theorem validateGhostdagData_higher_level :
    Hash.fromSlice [2] ∉ [Hash.fromSlice [1]] ∧
    validateGhostdagData ⟨{ Header.new with
        parentsByLevel := [[Hash.fromSlice [1]], [Hash.fromSlice [2]]] }, [],
      some { GhostDagData.default with selectedParent := Hash.fromSlice [2] }⟩ = .ok () := by
  decide

/-- The GHOSTDAG data `add_block` computes for a block passes `validate_ghostdag_data`:
`select_parent` picks the selected parent among the parents of all levels, the very
set the check looks in, unless the block is genesis. -/
theorem validateGhostdagData_addBlock (sha256 : List UInt8 → List UInt8) (g : GhostDag)
    (block : Block) :
    ∃ data g', g.addBlock (block.toDagBlock sha256) = .ok (data, g') ∧
      validateGhostdagData { block with ghostdagData := some data } = .ok () := by
  obtain ⟨sp, blues, reds, hsp, -, hadd⟩ := g.addBlock_ok (block.toDagBlock sha256)
  refine ⟨_, _, hadd, ?_⟩
  cases hg : block.isGenesis
  · obtain ⟨p, hp, -, hlast⟩ := g.selectParent_spec (block.toDagBlock sha256).allParents
    have hne : (block.toDagBlock sha256).allParents ≠ [] := by
      simp [GhostDag.allParents_eq_nil_iff, hg]
    obtain rfl : sp = p := by simpa [hsp] using hp
    have hmem : sp ∈ block.header.parentsByLevel.flatten := (hlast hne).mem
    simp [validateGhostdagData, Block.isGenesis, hg, hmem]
  · simp [validateGhostdagData, Block.isGenesis, ← hg]

end Jiopad
