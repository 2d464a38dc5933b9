import Jiopad.Consensus.Ghostdag.Engine

/-!
# The chain selector

`ChainSelector` of `chain_selection.rs`: a shared GHOSTDAG engine, which it only reads,
and the virtual state behind a lock.  The relations map's iteration order is
unspecified, so the scans take it as the argument `order`.  The loops over selected
parents stop at their target or at a hash without a selected parent and loop forever
on a cycle; each runs on fuel of one more than the number of registered blocks and
returns `none` when the fuel runs out.
-/

namespace Jiopad

structure VirtualState where
  selectedTip : Hash
  blueScore : UInt64
  daaScore : UInt64
  mergeSet : List Hash
  deriving DecidableEq

def VirtualState.default : VirtualState := ⟨Hash.default, 0, 0, []⟩

/-- What `update_virtual_state` reads of `new_block`: `new_block.hash()`, the header's
`blue_score` and `daa_score`, and `ghostdag_data`. -/
structure NewBlock where
  hash : Hash
  blueScore : UInt64
  daaScore : UInt64
  ghostdagData : Option GhostDagData
  deriving DecidableEq

def NewBlock.virtualState (newBlock : NewBlock) : VirtualState :=
  ⟨newBlock.hash, newBlock.blueScore, newBlock.daaScore,
    (newBlock.ghostdagData.map GhostDagData.mergeSetBlues).getD []⟩

/-- The write step of `update_virtual_state`, under the write lock, given the blue score
its read step took: the block's data when its score is larger, else no change. -/
def VirtualState.update (state : VirtualState) (newBlock : NewBlock) (currentBlueScore : UInt64) :
    VirtualState :=
  if newBlock.blueScore > currentBlueScore then newBlock.virtualState else state

structure ChainSelector where
  ghostdag : GhostDag
  virtualState : VirtualState

namespace GhostDag

def selectedParentOf (g : GhostDag) (h : Hash) : Option Hash :=
  (g.getRelations h).bind BlockRelations.selectedParent

/-- The fuel of a selected-parent walk. -/
def walkFuel (g : GhostDag) : Nat := g.blockRelations.keys.card + 1

/-- The first loop of `find_common_ancestor`: `current` and every hash down its
selected parents, in the order visited. -/
def collectAncestors (g : GhostDag) : Nat → Hash → Option (List Hash)
  | 0, _ => none
  | fuel + 1, current =>
    match g.selectedParentOf current with
    | some parent => (collectAncestors g fuel parent).map (current :: ·)
    | none => some [current]

/-- The second loop of `find_common_ancestor`: the first hash down the selected parents
of `current` that is in `ancestors`. -/
def findInAncestors (g : GhostDag) (ancestors : List Hash) : Nat → Hash → Option (ConsensusResult Hash)
  | 0, _ => none
  | fuel + 1, current =>
    if current ∈ ancestors then some (.ok current)
    else
      match g.selectedParentOf current with
      | some parent => findInAncestors g ancestors fuel parent
      | none => some (.error .NoCommonAncestor)

/-- A loop of `calculate_reorg_path`: the hashes down the selected parents of `current`
before `commonAncestor`. -/
def pathTo (g : GhostDag) (commonAncestor : Hash) : Nat → Hash → Option (List Hash)
  | 0, _ => none
  | fuel + 1, current =>
    if current = commonAncestor then some []
    else
      match g.selectedParentOf current with
      | some parent => (pathTo g commonAncestor fuel parent).map (current :: ·)
      | none => some [current]

end GhostDag

/-- An order in which the relations map can be iterated: every registered hash once. -/
def IsIterationOrder (g : GhostDag) (order : List Hash) : Prop :=
  (order : Multiset Hash) = g.blockRelations.keys.val

instance (g : GhostDag) (order : List Hash) : Decidable (IsIterationOrder g order) :=
  inferInstanceAs (Decidable (_ = _))

namespace ChainSelector

def new (ghostdag : GhostDag) : ChainSelector := ⟨ghostdag, VirtualState.default⟩

/-- `ChainSelector::get_all_tips`, iterating the relations map in the order `order`. -/
def getAllTips (cs : ChainSelector) (order : List Hash) : ConsensusResult (List Hash) :=
  .ok (order.filter fun blockHash =>
    (cs.ghostdag.getRelations blockHash).any fun relations => relations.children.isEmpty)

/-- `ChainSelector::select_tip`.  `max_by_key` returns `None` exactly for an empty list
of tips, so the `unwrap` never fails. -/
def selectTip (cs : ChainSelector) (order : List Hash) : ConsensusResult Hash := do
  let tips ← cs.getAllTips order
  match maxByKey (fun tip => (cs.ghostdag.getBlueScore tip).getD 0) tips with
  | some bestTip => pure bestTip
  | none => throw .NoTips

/-- `ChainSelector::update_virtual_state`: the read step, then the write step. -/
def updateVirtualState (cs : ChainSelector) (newBlock : NewBlock) :
    ConsensusResult Unit × ChainSelector :=
  let currentBlueScore := cs.virtualState.blueScore
  (.ok (), { cs with virtualState := cs.virtualState.update newBlock currentBlueScore })

def getVirtualState (cs : ChainSelector) : VirtualState := cs.virtualState

def findCommonAncestor (cs : ChainSelector) (block1 block2 : Hash) :
    Option (ConsensusResult Hash) :=
  (cs.ghostdag.collectAncestors cs.ghostdag.walkFuel block1).bind fun ancestors1 =>
    cs.ghostdag.findInAncestors ancestors1 cs.ghostdag.walkFuel block2

def calculateReorgPath (cs : ChainSelector) (oldTip newTip : Hash) :
    Option (ConsensusResult (List Hash × List Hash)) :=
  (cs.findCommonAncestor oldTip newTip).bind fun
    | .error e => some (.error e)
    | .ok commonAncestor =>
      (cs.ghostdag.pathTo commonAncestor cs.ghostdag.walkFuel oldTip).bind fun removed =>
        (cs.ghostdag.pathTo commonAncestor cs.ghostdag.walkFuel newTip).map fun added =>
          .ok (added.reverse, removed)

def calculateVirtualStateForTip (cs : ChainSelector) (tip : Hash) : VirtualState :=
  ⟨tip, (cs.ghostdag.getBlueScore tip).getD 0,
    ((cs.ghostdag.getRelations tip).map BlockRelations.blueScore).getD 0,
    ((cs.ghostdag.getRelations tip).map BlockRelations.mergeSetBlues).getD []⟩

def handleReorg (cs : ChainSelector) (oldTip newTip : Hash) :
    Option (ConsensusResult Unit × ChainSelector) :=
  (cs.calculateReorgPath oldTip newTip).map fun
    | .error e => (.error e, cs)
    | .ok _ => (.ok (), { cs with virtualState := cs.calculateVirtualStateForTip newTip })

end ChainSelector

end Jiopad
