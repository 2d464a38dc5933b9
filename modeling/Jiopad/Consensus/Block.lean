import Jiopad.Consensus.Header
import Jiopad.Consensus.Merkle.Root
import Jiopad.Consensus.Ghostdag.Engine
import Jiopad.Sha256

/-!
# Blocks

`Block` of `block.rs`.  `validate` compares the header's merkle root with
`hash_merkle_root`, the digest of the transaction hashes laid end to end, not with
`calculate_merkle_root`, the root of the tree of `merkle.rs`: the two differ for no
transaction, and for two or more a header carrying the tree's root passes only where
`hash_data` gives one hash to the `32 · n` flat bytes and to a 32-byte digest.
-/

namespace Jiopad

structure Block where
  header : Header
  transactions : List Hash
  ghostdagData : Option GhostDagData
  deriving DecidableEq

namespace Block

variable (sha256 : List UInt8 → List UInt8)

def new (header : Header) (transactions : List Hash) : Block := ⟨header, transactions, none⟩

def validate (block : Block) : ConsensusResult Unit :=
  let merkleRoot := hashMerkleRoot sha256 block.transactions
  if block.header.merkleRoot ≠ merkleRoot then .error .MerkleRootMismatch else .ok ()

def hash (block : Block) : Hash := block.header.hash sha256

def isGenesis (block : Block) : Bool := block.header.parentsByLevel.all List.isEmpty

/-- What `GhostDag::add_block` reads of a block: its hash and its parent levels. -/
def toDagBlock (block : Block) : DagBlock := ⟨block.hash sha256, block.header.parentsByLevel⟩

@[simp] theorem isGenesis_toDagBlock (block : Block) :
    (block.toDagBlock sha256).isGenesis = block.isGenesis := rfl

theorem validate_eq (block : Block) :
    block.validate sha256 =
      if block.header.merkleRoot = hashMerkleRoot sha256 block.transactions then .ok ()
      else .error .MerkleRootMismatch := by
  by_cases h : block.header.merkleRoot = hashMerkleRoot sha256 block.transactions <;>
    simp [validate, h]

set_option maxRecDepth 100000 in
/-- The block `Block::new(Header::new(), vec![])` commits to the all-zero root, which
is `calculate_merkle_root` of no transaction, and `validate` rejects it. -/
theorem validate_new_empty :
    (Block.new Header.new []).header.merkleRoot = calculateMerkleRoot Sha256.digest [] ∧
    (Block.new Header.new []).validate Sha256.digest = .error .MerkleRootMismatch := by
  decide

/-- For two or more transactions, `validate` rejects a block whose header carries
`calculate_merkle_root` of its transactions, unless `hash_data` gives one hash to the
`32 · n` bytes of the transactions and to the 32 bytes the root's outer `hash_data`
reads, the digest of the root node's pre-image. -/
theorem validate_rejects_calculateMerkleRoot (block : Block) (hlen : 2 ≤ block.transactions.length)
    (hroot : block.header.merkleRoot = calculateMerkleRoot sha256 block.transactions) :
    block.validate sha256 = .error .MerkleRootMismatch ∨
      block.transactions.flatMap Hash.asBytes ≠ (hashData sha256
          (MerkleTree.nodePreimage sha256 block.transactions 0 (block.transactions.length - 1))).asBytes ∧
        hashData sha256 (block.transactions.flatMap Hash.asBytes) = hashData sha256 (hashData sha256
          (MerkleTree.nodePreimage sha256 block.transactions 0 (block.transactions.length - 1))).asBytes := by
  rw [validate_eq]
  by_cases hflat : block.header.merkleRoot = hashMerkleRoot sha256 block.transactions
  · right
    have hne : block.transactions ≠ [] := fun e => by simp [e] at hlen
    rw [hroot, MerkleTree.root_fromTxHashes_of_ne_nil sha256 hne,
      MerkleTree.hash_buildTree_of_lt sha256 _ (by omega)] at hflat
    refine ⟨fun e => ?_, hflat.symm⟩
    have := congrArg List.length e
    rw [Hash.length_asBytes, Header.length_flatMap_asBytes] at this
    omega
  · exact .inl (if_neg hflat)

theorem validate_rejects_calculateMerkleRoot_pair :
    2 ≤ (Block.new { Header.new with merkleRoot := calculateMerkleRoot Sha256.digest [Hash.default, Hash.default] }
        [Hash.default, Hash.default]).transactions.length ∧
    (Block.new { Header.new with merkleRoot := calculateMerkleRoot Sha256.digest [Hash.default, Hash.default] }
        [Hash.default, Hash.default]).header.merkleRoot =
      calculateMerkleRoot Sha256.digest [Hash.default, Hash.default] ∧
    ((Block.new { Header.new with merkleRoot := calculateMerkleRoot Sha256.digest [Hash.default, Hash.default] }
        [Hash.default, Hash.default]).validate Sha256.digest = .error .MerkleRootMismatch ∨
      [Hash.default, Hash.default].flatMap Hash.asBytes ≠ (hashData Sha256.digest
          (MerkleTree.nodePreimage Sha256.digest [Hash.default, Hash.default] 0 1)).asBytes ∧
        hashData Sha256.digest ([Hash.default, Hash.default].flatMap Hash.asBytes) =
          hashData Sha256.digest (hashData Sha256.digest
            (MerkleTree.nodePreimage Sha256.digest [Hash.default, Hash.default] 0 1)).asBytes) :=
  ⟨le_refl 2, rfl, validate_rejects_calculateMerkleRoot Sha256.digest _ (le_refl 2) rfl⟩

end Block

end Jiopad
