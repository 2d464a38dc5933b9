import Jiopad.Consensus.Basic
import Jiopad.Consensus.Ghostdag.Walk
import Mathlib.Data.Finmap

/-!
# The GHOSTDAG engine

`GhostDag` of `ghostdag.rs`: the parameter `k`, the relations map and the blue-score map,
its `DashMap`s as `Finmap`s.  `add_block` reads the block's hash and parent levels,
walks the past from the parents of all levels and calls an ancestor blue when its count
of registered descendants is at most `k`, selects the parent with the largest stored
blue score, and then writes the block's records.  Counters are `u64`s that wrap; they
would need `2 ^ 64` registered hashes to overflow.
-/

namespace Jiopad

structure GhostDagData where
  blueScore : UInt64
  blueWork : Uint192
  selectedParent : Hash
  mergeSetBlues : List Hash
  mergeSetReds : List Hash
  bluesAnticoneSizes : Finmap fun _ : Hash => UInt64
  deriving DecidableEq

def GhostDagData.default : GhostDagData := ⟨0, Uint192.fromU64 0, Hash.default, [], [], ∅⟩

instance : Inhabited GhostDagData := ⟨GhostDagData.default⟩

structure BlockRelations where
  parents : List Hash
  children : List Hash
  isBlue : Bool
  blueScore : UInt64
  selectedParent : Option Hash
  mergeSetBlues : List Hash
  mergeSetReds : List Hash
  deriving DecidableEq

structure GhostDag where
  k : KType
  blockRelations : Finmap fun _ : Hash => BlockRelations
  blueScores : Finmap fun _ : Hash => UInt64
  deriving DecidableEq

/-- What `GhostDag::add_block` reads of a block: `block.hash()` and
`block.header.parents_by_level`. -/
structure DagBlock where
  hash : Hash
  parentsByLevel : List (List Hash)
  deriving DecidableEq

def DagBlock.allParents (block : DagBlock) : List Hash := block.parentsByLevel.flatten

def DagBlock.isGenesis (block : DagBlock) : Bool := block.parentsByLevel.all List.isEmpty

def maxKey (key : Hash → UInt64) (best q : Hash) : Hash := if key q < key best then best else q

/-- `max_by_key` of `rayon` and of `Iterator`: the last element with the greatest key. -/
def maxByKey (key : Hash → UInt64) : List Hash → Option Hash
  | [] => none
  | p :: ps => some (ps.foldl (maxKey key) p)

namespace GhostDag

def new (k : KType) : GhostDag := ⟨k, ∅, ∅⟩

def parentsOf (g : GhostDag) (h : Hash) : List Hash :=
  ((g.blockRelations.lookup h).map BlockRelations.parents).getD []

def childrenOf (g : GhostDag) (h : Hash) : List Hash :=
  ((g.blockRelations.lookup h).map BlockRelations.children).getD []

def getBlueScore (g : GhostDag) (blockHash : Hash) : Option UInt64 := g.blueScores.lookup blockHash

def getRelations (g : GhostDag) (blockHash : Hash) : Option BlockRelations :=
  g.blockRelations.lookup blockHash

/-- `self.blue_scores.get(parent).map(|s| *s).unwrap_or(0)`. -/
def storedBlueScore (g : GhostDag) (h : Hash) : UInt64 := (g.blueScores.lookup h).getD 0

/-- The walk of `calculate_anticone_size_optimized` over children lists from
`blockHash`, passing over `visited`, counting every hash but `blockHash`. -/
def anticoneWalk (g : GhostDag) (blockHash : Hash) (visited : List Hash) : WalkState UInt64 :=
  walk g.childrenOf (fun h => decide (h ∈ visited))
    (fun size current => if current ≠ blockHash then size + 1 else size)
    (1 + ∑ h ∈ g.blockRelations.keys, (g.childrenOf h).length) ⟨[blockHash], [], 0⟩

def calculateAnticoneSizeOptimized (g : GhostDag) (blockHash : Hash) (visited : List Hash) :
    UInt64 :=
  (g.anticoneWalk blockHash visited).acc

def IsBlueCandidate (g : GhostDag) (h : Hash) : Prop :=
  g.calculateAnticoneSizeOptimized h [] ≤ g.k.toUInt64

instance (g : GhostDag) (h : Hash) : Decidable (g.IsBlueCandidate h) :=
  inferInstanceAs (Decidable (_ ≤ _))

def classify (g : GhostDag) (sets : List Hash × List Hash) (current : Hash) :
    List Hash × List Hash :=
  if g.IsBlueCandidate current then (sets.1 ++ [current], sets.2)
  else (sets.1, sets.2 ++ [current])

def blueSetWalk (g : GhostDag) (parents : List Hash) : WalkState (List Hash × List Hash) :=
  walk g.parentsOf (fun _ => false) g.classify
    (parents.length + ∑ h ∈ g.blockRelations.keys, (g.parentsOf h).length)
    ⟨parents, [], ([], [])⟩

def calculateBlueSet (g : GhostDag) (parents : List Hash) : List Hash × List Hash :=
  (g.blueSetWalk parents).acc

def selectParent (g : GhostDag) (parents : List Hash) : ConsensusResult Hash :=
  if parents.isEmpty then .ok Hash.default
  else
    match maxByKey g.storedBlueScore parents with
    | some p => .ok p
    | none => .error .NoValidParent

/-- `GhostDag::get_block_work`, a placeholder of one unit of work. -/
def getBlockWork (_g : GhostDag) (_blockHash : Hash) : ConsensusResult Uint192 :=
  .ok (Uint192.fromU64 1)

/-- `GhostDag::calculate_blue_work_proper`: one unit per blue block, counted in a
`u128` and cast to `u64`. -/
def calculateBlueWorkProper (g : GhostDag) (blueSet : List Hash) : ConsensusResult Uint192 := do
  let totalWork ← blueSet.foldlM
    (fun totalWork blockHash => do
      let _blockWork ← g.getBlockWork blockHash
      pure (totalWork + 1)) 0
  pure (Uint192.fromU64 (UInt64.ofNat totalWork))

def calculateBluesAnticoneSizes (g : GhostDag) (blueSet parents : List Hash) :
    Finmap fun _ : Hash => UInt64 :=
  blueSet.foldl (fun sizes b => sizes.insert b (g.calculateAnticoneSizeOptimized b parents)) ∅

/-- `parent_relations.children.write().push(child)` when the parent is registered. -/
def addChild (g : GhostDag) (child parent : Hash) : GhostDag :=
  match g.blockRelations.lookup parent with
  | some r => { g with blockRelations := g.blockRelations.insert parent { r with children := r.children ++ [child] } }
  | none => g

/-- The writes of `add_block`: insert the relations and the blue score, then append
the block to the children of each registered parent, once per occurrence. -/
def commitBlock (g : GhostDag) (block : DagBlock) (blueSet redSet : List Hash)
    (selectedParent : Hash) : GhostDag :=
  let blueScore := UInt64.ofNat blueSet.length
  let relations : BlockRelations :=
    ⟨block.allParents, [], blueSet.contains block.hash, blueScore, some selectedParent, blueSet,
      redSet⟩
  let stored : GhostDag :=
    { g with
      blockRelations := g.blockRelations.insert block.hash relations
      blueScores := g.blueScores.insert block.hash blueScore }
  block.allParents.foldl (fun g parent => g.addChild block.hash parent) stored

def addBlock (g : GhostDag) (block : DagBlock) : ConsensusResult (GhostDagData × GhostDag) := do
  let (blueSet, redSet) := g.calculateBlueSet block.allParents
  let selectedParent ← g.selectParent block.allParents
  let blueWork ← g.calculateBlueWorkProper blueSet
  let blueScore := UInt64.ofNat blueSet.length
  let g' := g.commitBlock block blueSet redSet selectedParent
  let bluesAnticoneSizes := g'.calculateBluesAnticoneSizes blueSet block.allParents
  pure (⟨blueScore, blueWork, selectedParent, blueSet, redSet, bluesAnticoneSizes⟩, g')

/-- A sequence of `add_block` calls from `g`, stopping at the first error: each
block's hash with the data its call returned, and the engine at the end. -/
def addBlocks (g : GhostDag) : List DagBlock → ConsensusResult (List (Hash × GhostDagData) × GhostDag)
  | [] => .ok ([], g)
  | block :: blocks => do
    let (data, g') ← g.addBlock block
    let (results, g'') ← g'.addBlocks blocks
    pure ((block.hash, data) :: results, g'')

end GhostDag

end Jiopad
