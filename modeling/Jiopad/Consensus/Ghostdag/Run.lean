import Jiopad.Consensus.Ghostdag.AddBlock

/-!
# Runs of `add_block`

A run of `add_block` calls never fails.  The data it hands a block is not a
function of the block's past: `calculate_blue_set` files each ancestor by its
count of registered descendants, and that count includes every block that
arrived earlier below the ancestor, related to the new block or not.
-/

namespace Jiopad

namespace GhostDag

theorem addBlocks_cons {g g₁ : GhostDag} {block : DagBlock} {data : GhostDagData}
    (hadd : g.addBlock block = .ok (data, g₁)) (blocks : List DagBlock) :
    g.addBlocks (block :: blocks) =
      (g₁.addBlocks blocks).map fun r => ((block.hash, data) :: r.1, r.2) := by
  simp only [addBlocks, hadd, bind, Except.bind]
  cases g₁.addBlocks blocks <;> rfl

theorem addBlocks_cons_eq_ok {g g₁ g' : GhostDag} {block : DagBlock} {data : GhostDagData}
    (hadd : g.addBlock block = .ok (data, g₁)) {blocks : List DagBlock}
    {results : List (Hash × GhostDagData)} :
    g.addBlocks (block :: blocks) = .ok (results, g') ↔
      ∃ rest, g₁.addBlocks blocks = .ok (rest, g') ∧ results = (block.hash, data) :: rest := by
  rw [addBlocks_cons hadd]
  cases g₁.addBlocks blocks with
  | error e => exact iff_of_false (fun h => by cases h) fun ⟨_, h, _⟩ => by cases h
  | ok r =>
    constructor
    · intro h; cases h; exact ⟨r.1, rfl, rfl⟩
    · rintro ⟨rest, h, rfl⟩; cases h; rfl

theorem addBlocks_ok (g : GhostDag) (blocks : List DagBlock) :
    ∃ results g', g.addBlocks blocks = .ok (results, g') ∧
      results.map Prod.fst = blocks.map DagBlock.hash := by
  induction blocks generalizing g with
  | nil => exact ⟨[], g, rfl, rfl⟩
  | cons block blocks ih =>
    obtain ⟨sp, blues, reds, -, -, hadd⟩ := g.addBlock_ok block
    obtain ⟨results, g₂, hrun, hmap⟩ := ih (g.commitBlock block blues reds sp)
    exact ⟨_, g₂, by rw [addBlocks_cons hadd, hrun]; rfl, by simp [hmap]⟩

/-! ## Reachable states -/

/-- The engine states that `add_block` calls reach from `GhostDag::new(k)`. -/
inductive Reachable : GhostDag → Prop
  | new (k : KType) : Reachable (new k)
  | addBlock {g g' : GhostDag} {block : DagBlock} {data : GhostDagData} :
      Reachable g → g.addBlock block = .ok (data, g') → Reachable g'

theorem addBlocks_concat {g g₁ g₂ : GhostDag} {blocks : List DagBlock}
    {results : List (Hash × GhostDagData)} (hrun : g.addBlocks blocks = .ok (results, g₁))
    {block : DagBlock} {data : GhostDagData} (hadd : g₁.addBlock block = .ok (data, g₂)) :
    g.addBlocks (blocks ++ [block]) = .ok (results ++ [(block.hash, data)], g₂) := by
  induction blocks generalizing g results with
  | nil =>
    cases hrun
    rw [List.nil_append, addBlocks_cons hadd]
    rfl
  | cons b blocks ih =>
    obtain ⟨_, _, _, -, -, hb⟩ := g.addBlock_ok b
    obtain ⟨rest, hrest, rfl⟩ := (addBlocks_cons_eq_ok hb).mp hrun
    exact (addBlocks_cons_eq_ok hb).mpr ⟨_, ih hrest, rfl⟩

/-! ## The two maps agree -/

def ScoresAgree (g : GhostDag) : Prop :=
  ∀ h, g.getBlueScore h = (g.getRelations h).map BlockRelations.blueScore

private theorem map_blueScore_withoutChildren (o : Option BlockRelations) :
    o.map BlockRelations.blueScore =
      (o.map BlockRelations.withoutChildren).map BlockRelations.blueScore := by
  cases o <;> rfl

theorem scoresAgree_commitBlock {g : GhostDag} (hg : g.ScoresAgree) (block : DagBlock)
    (blues reds : List Hash) (sp : Hash) : (g.commitBlock block blues reds sp).ScoresAgree := by
  intro h
  rw [getBlueScore, commitBlock_blueScores, getRelations, map_blueScore_withoutChildren, commitBlock,
    (addChildren_frame _ _ _).2, ← map_blueScore_withoutChildren]
  by_cases e : h = block.hash
  · subst e
    simp only [Finmap.lookup_insert, Option.map_some']
  · rw [Finmap.lookup_insert_of_ne _ e, Finmap.lookup_insert_of_ne _ e]
    exact hg h

theorem scoresAgree_addBlock {g g' : GhostDag} (hg : g.ScoresAgree) {block : DagBlock}
    {data : GhostDagData} (hadd : g.addBlock block = .ok (data, g')) : g'.ScoresAgree := by
  obtain ⟨sp, blues, reds, -, -, hadd'⟩ := g.addBlock_ok block
  rw [hadd'] at hadd
  cases hadd
  exact scoresAgree_commitBlock hg block blues reds sp

theorem Reachable.scoresAgree {g : GhostDag} (hg : g.Reachable) : g.ScoresAgree := by
  induction hg with
  | new k =>
    intro h
    simp only [getBlueScore, getRelations, GhostDag.new, Finmap.lookup_empty, Option.map_none']
  | addBlock _ hadd ih => exact scoresAgree_addBlock ih hadd

/-- With `k = 0`, registering `G`, then its children `A` and `B`, gives `B` blue
score 0 (with `G` red, since `A` is below it) when `A` comes first, and 1 (with
`G` blue) when `B` comes first. -/
theorem addBlocks_order_changes_data :
    ((GhostDag.new 0).addBlocks [⟨Hash.fromSlice [1], [[]]⟩,
        ⟨Hash.fromSlice [2], [[Hash.fromSlice [1]]]⟩,
        ⟨Hash.fromSlice [3], [[Hash.fromSlice [1]]]⟩]).map
      (fun r => (r.1.lookup (Hash.fromSlice [3])).map fun d => (d.blueScore, d.mergeSetBlues)) =
      .ok (some (0, [])) ∧
    ((GhostDag.new 0).addBlocks [⟨Hash.fromSlice [1], [[]]⟩,
        ⟨Hash.fromSlice [3], [[Hash.fromSlice [1]]]⟩,
        ⟨Hash.fromSlice [2], [[Hash.fromSlice [1]]]⟩]).map
      (fun r => (r.1.lookup (Hash.fromSlice [3])).map fun d => (d.blueScore, d.mergeSetBlues)) =
      .ok (some (1, [Hash.fromSlice [1]])) := by
  decide

end GhostDag

end Jiopad
