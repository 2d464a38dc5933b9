import Jiopad.Consensus.Ghostdag.Run

/-!
# The relation graph across calls

`add_block` inserts a fresh relations record with an empty children list and appends
the block to the children of each parent registered at that moment, once per occurrence
in the flattened parent list.  So a parent registered after its child never lists it, a
parent named on two levels lists the child twice, and a block added again loses its
children.
-/

namespace Jiopad

namespace GhostDag

theorem addBlocks_concat_inv {g g' : GhostDag} {blocks : List DagBlock} {B : DagBlock}
    {results : List (Hash × GhostDagData)} (hg : g.addBlocks (blocks ++ [B]) = .ok (results, g')) :
    ∃ results₁ g₁ sp blues reds, g.addBlocks blocks = .ok (results₁, g₁) ∧
      g₁.selectParent B.allParents = .ok sp ∧ g' = g₁.commitBlock B blues reds sp := by
  obtain ⟨results₁, g₁, hrun, -⟩ := g.addBlocks_ok blocks
  obtain ⟨sp, blues, reds, hsp, -, hadd⟩ := g₁.addBlock_ok B
  rw [addBlocks_concat hrun hadd] at hg
  cases hg
  exact ⟨results₁, g₁, sp, blues, reds, hrun, hsp, rfl⟩

theorem mem_addBlocks {k : KType} {blocks : List DagBlock} {results : List (Hash × GhostDagData)}
    {g : GhostDag} (hg : (new k).addBlocks blocks = .ok (results, g)) (h : Hash) :
    h ∈ g.blockRelations ↔ ∃ X ∈ blocks, X.hash = h := by
  induction blocks using List.reverseRecOn generalizing results g with
  | nil => cases hg; simp [new, Finmap.not_mem_empty]
  | append_singleton blocks B ih =>
    obtain ⟨_, _, _, _, _, hrun, -, rfl⟩ := addBlocks_concat_inv hg
    rw [mem_commitBlock, ih hrun]
    simp only [List.mem_append, List.mem_singleton, or_and_right, exists_or, exists_eq_left]
    exact or_comm.trans (or_congr_right eq_comm)

/-- In a run that adds each hash once, the registered hashes are those of the run, and
the children list of a block `X` of the run holds, as a set, the blocks from `X` on
that list `X` among their parents at some level: a block added before `X` is not
in it, though it lists `X`. -/
theorem childrenOf_addBlocks (k : KType) (blocks : List DagBlock)
    (hnd : (blocks.map DagBlock.hash).Nodup) :
    ∃ results g, (new k).addBlocks blocks = .ok (results, g) ∧
      (∀ h, h ∈ g.blockRelations ↔ ∃ X ∈ blocks, X.hash = h) ∧
      ∀ pre X post, blocks = pre ++ X :: post →
        ∀ y, y ∈ g.childrenOf X.hash ↔ ∃ Y ∈ X :: post, Y.hash = y ∧ X.hash ∈ Y.allParents := by
  induction blocks using List.reverseRecOn with
  | nil => exact ⟨[], new k, rfl, mem_addBlocks rfl, fun pre X post hsplit => by simp at hsplit⟩
  | append_singleton blocks B ih =>
    rw [List.map_append, List.nodup_append] at hnd
    have hB : ∀ X ∈ blocks, X.hash ≠ B.hash := fun X hX e =>
      hnd.2.2 (List.mem_map_of_mem _ hX) (by simp [e])
    obtain ⟨results, g, hrun, -, hch⟩ := ih hnd.1
    obtain ⟨sp, blues, reds, -, -, hadd⟩ := g.addBlock_ok B
    refine ⟨_, _, addBlocks_concat hrun hadd, mem_addBlocks (addBlocks_concat hrun hadd),
      fun pre X post hsplit y => ?_⟩
    rw [childrenOf_commitBlock, List.mem_append]
    rcases List.eq_nil_or_concat post with rfl | ⟨L, b, rfl⟩
    · obtain ⟨rfl, hX⟩ := List.append_inj' hsplit rfl
      obtain rfl := (List.cons.inj hX).1
      simp only [if_pos, true_or, List.not_mem_nil, false_or, List.mem_replicate, ne_eq,
        List.count_eq_zero, not_not, List.mem_singleton, exists_eq_left]
      tauto
    · rw [List.concat_eq_append] at hsplit ⊢
      have hsplit' : blocks ++ [B] = (pre ++ X :: L) ++ [b] := by rw [hsplit]; simp
      obtain ⟨rfl, hb⟩ := List.append_inj' hsplit' rfl
      obtain rfl := (List.cons.inj hb).1
      have hX : X ∈ pre ++ X :: L := List.mem_append_right _ (List.mem_cons_self _ _)
      rw [if_neg (hB X hX), if_pos (.inr ((mem_addBlocks hrun _).mpr ⟨X, hX, rfl⟩)), hch pre X L rfl y,
        List.mem_replicate, ne_eq, List.count_eq_zero, not_not, ← List.cons_append]
      simp only [List.mem_append, List.mem_singleton, or_and_right, exists_or, exists_eq_left]
      exact or_congr_right ⟨fun ⟨hp, hy⟩ => ⟨hy.symm, hp⟩, fun ⟨hy, hp⟩ => ⟨hp, hy.symm⟩⟩

theorem childrenOf_addBlocks_chain :
    ([⟨Hash.fromSlice [1], [[]]⟩, ⟨Hash.fromSlice [2], [[Hash.fromSlice [1]]]⟩].map
        DagBlock.hash).Nodup ∧
    ∃ results g, (new 0).addBlocks [⟨Hash.fromSlice [1], [[]]⟩,
        ⟨Hash.fromSlice [2], [[Hash.fromSlice [1]]]⟩] = .ok (results, g) ∧
      (∀ h, h ∈ g.blockRelations ↔ ∃ X ∈ [(⟨Hash.fromSlice [1], [[]]⟩ : DagBlock),
          ⟨Hash.fromSlice [2], [[Hash.fromSlice [1]]]⟩], X.hash = h) ∧
      ∀ pre X post, [(⟨Hash.fromSlice [1], [[]]⟩ : DagBlock),
          ⟨Hash.fromSlice [2], [[Hash.fromSlice [1]]]⟩] = pre ++ X :: post →
        ∀ y, y ∈ g.childrenOf X.hash ↔ ∃ Y ∈ X :: post, Y.hash = y ∧ X.hash ∈ Y.allParents :=
  ⟨by decide, childrenOf_addBlocks 0 _ (by decide)⟩

/-- A block `A` added before its parent `G`: `G` is registered and `A` lists it, but
`G`'s children list is empty. -/
theorem childrenOf_parent_after_child :
    ((GhostDag.new 0).addBlocks [⟨Hash.fromSlice [2], [[Hash.fromSlice [1]]]⟩,
        ⟨Hash.fromSlice [1], [[]]⟩]).map
      (fun r => (r.2.childrenOf (Hash.fromSlice [1]), decide (Hash.fromSlice [2] ∈ r.2.blockRelations),
        decide (Hash.fromSlice [1] ∈ r.2.blockRelations))) = .ok ([], true, true) := by
  decide

/-- `add_block` accepts a block whatever its parents: an unregistered parent counts as
blue score 0 and has no parents for the walk, it stays unregistered (unless it is the
block itself), and the block is registered. -/
theorem addBlock_dangling_parents {g : GhostDag} (hg : g.Reachable) (block : DagBlock) :
    ∃ data g', g.addBlock block = .ok (data, g') ∧ block.hash ∈ g'.blockRelations ∧
      ∀ p ∈ block.allParents, p ∉ g.blockRelations →
        g.storedBlueScore p = 0 ∧ g.parentsOf p = [] ∧ (p ≠ block.hash → p ∉ g'.blockRelations) := by
  obtain ⟨sp, blues, reds, -, -, hadd⟩ := g.addBlock_ok block
  refine ⟨_, _, hadd, (mem_commitBlock _ _ _ _ _ _).mpr (.inl rfl), fun p _ hp => ⟨?_, ?_, ?_⟩⟩
  · rw [storedBlueScore, ← getBlueScore, hg.scoresAgree p, getRelations,
      Finmap.lookup_eq_none.mpr hp]
    rfl
  · exact g.parentsOf_of_not_mem fun h => hp (Finmap.mem_keys.mp h)
  · intro hne hmem
    exact ((mem_commitBlock _ _ _ _ _ _).mp hmem).elim hne hp

theorem addBlock_dangling_parents_new :
    (GhostDag.new 18).Reachable ∧
    ∃ data g', (GhostDag.new 18).addBlock ⟨Hash.fromSlice [2], [[Hash.fromSlice [1]]]⟩ =
        .ok (data, g') ∧ Hash.fromSlice [2] ∈ g'.blockRelations ∧
      ∀ p ∈ [Hash.fromSlice [1]], p ∉ (GhostDag.new 18).blockRelations →
        (GhostDag.new 18).storedBlueScore p = 0 ∧ (GhostDag.new 18).parentsOf p = [] ∧
          (p ≠ Hash.fromSlice [2] → p ∉ g'.blockRelations) :=
  ⟨.new 18, addBlock_dangling_parents (.new 18) _⟩

/-- A block whose only parent is unknown is accepted and registered. -/
theorem addBlock_dangling_ok :
    ((GhostDag.new 18).addBlock ⟨Hash.fromSlice [2], [[Hash.fromSlice [1]]]⟩).map
      (fun r => decide (Hash.fromSlice [2] ∈ r.2.blockRelations)) = .ok true := by
  decide

/-- Adding `G`, then `A` below it, and adding either again: with `k = 0`, `A`'s blue
score goes from 1 to 0, and `G`'s children list from `[A]` to `[]`. -/
theorem addBlock_readd_overwrites :
    ((GhostDag.new 0).addBlocks [⟨Hash.fromSlice [1], [[]]⟩,
        ⟨Hash.fromSlice [2], [[Hash.fromSlice [1]]]⟩]).bind (fun r =>
      (r.2.addBlock ⟨Hash.fromSlice [2], [[Hash.fromSlice [1]]]⟩).bind fun a =>
        (r.2.addBlock ⟨Hash.fromSlice [1], [[]]⟩).map fun b =>
          (r.2.getBlueScore (Hash.fromSlice [2]), a.2.getBlueScore (Hash.fromSlice [2]),
            r.2.childrenOf (Hash.fromSlice [1]), b.2.childrenOf (Hash.fromSlice [1]))) =
      .ok (some 1, some 0, [Hash.fromSlice [2]], []) := by
  decide

end GhostDag

end Jiopad
