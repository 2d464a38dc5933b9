import Jiopad.Consensus.Ghostdag.Engine

/-!
# What `add_block` returns

`add_block` never fails.  Its blue and red lists partition the block's whole past:
every hash reached from the parents of all levels through registered parents,
the selected parent and its own past included, each listed once.  The blue score
is the length of the blue list, and it is what the engine stores for the block.
The selected parent is the last parent, over all levels, with the largest stored
blue score.
-/

namespace Jiopad

/-- `p` occurs in `ps`, no element before it has a larger key, and every element
after it has a smaller one. -/
def LastMax (key : Hash → UInt64) (ps : List Hash) (p : Hash) : Prop :=
  ∃ pre post, ps = pre ++ p :: post ∧ (∀ q ∈ pre, key q ≤ key p) ∧ ∀ q ∈ post, key q < key p

theorem LastMax.le {key : Hash → UInt64} {ps : List Hash} {p : Hash} (h : LastMax key ps p) :
    ∀ q ∈ ps, key q ≤ key p := by
  obtain ⟨pre, post, rfl, hpre, hpost⟩ := h
  intro q hq
  rcases List.mem_append.mp hq with hq | hq | ⟨_, hq⟩
  · exact hpre q hq
  · exact UInt64.le_refl _
  · exact UInt64.le_of_lt (hpost q hq)

theorem LastMax.mem {key : Hash → UInt64} {ps : List Hash} {p : Hash} (h : LastMax key ps p) :
    p ∈ ps := by
  obtain ⟨pre, post, rfl, -, -⟩ := h
  exact List.mem_append_right _ (List.mem_cons_self _ _)

theorem lastMax_foldl_maxKey (key : Hash → UInt64) (b : Hash) (ps : List Hash) :
    LastMax key (b :: ps) (ps.foldl (maxKey key) b) := by
  induction ps using List.reverseRecOn with
  | nil => exact ⟨[], [], rfl, by simp, by simp⟩
  | append_singleton ps q ih =>
    rw [List.foldl_append, List.foldl_cons, List.foldl_nil, maxKey]
    split
    · next hq =>
      obtain ⟨pre, post, hsplit, hpre, hpost⟩ := ih
      refine ⟨pre, post ++ [q], by rw [← List.cons_append, hsplit]; simp, hpre, fun x hx => ?_⟩
      rcases List.mem_append.mp hx with hx | hx
      · exact hpost x hx
      · exact List.mem_singleton.mp hx ▸ hq
    · next hq =>
      exact ⟨b :: ps, [], rfl, fun x hx => UInt64.le_trans (ih.le x hx) (UInt64.not_lt.mp hq),
        by simp⟩

theorem maxByKey_lastMax (key : Hash → UInt64) {ps : List Hash} (hps : ps ≠ []) :
    ∃ p, maxByKey key ps = some p ∧ LastMax key ps p := by
  cases ps with
  | nil => exact absurd rfl hps
  | cons b ps => exact ⟨_, rfl, lastMax_foldl_maxKey key b ps⟩

namespace GhostDag

/-! ## Each step of `add_block` -/

theorem selectParent_spec (g : GhostDag) (parents : List Hash) :
    ∃ p, g.selectParent parents = .ok p ∧ (parents = [] → p = Hash.default) ∧
      (parents ≠ [] → LastMax g.storedBlueScore parents p) := by
  by_cases hps : parents = []
  · exact ⟨Hash.default, by simp [selectParent, hps], fun _ => rfl, fun h => absurd hps h⟩
  · obtain ⟨p, hp, hlast⟩ := maxByKey_lastMax g.storedBlueScore hps
    refine ⟨p, ?_, fun h => absurd h hps, fun _ => hlast⟩
    simp [selectParent, hps, hp]

theorem calculateBlueWorkProper_eq (g : GhostDag) (blueSet : List Hash) :
    g.calculateBlueWorkProper blueSet = .ok (Uint192.fromU64 (UInt64.ofNat blueSet.length)) := by
  have count : ∀ (l : List Hash) (n : Nat),
      l.foldlM (fun totalWork (_ : Hash) => (.ok (totalWork + 1) : ConsensusResult Nat)) n =
        .ok (n + l.length) := by
    intro l
    induction l with
    | nil => intro n; rfl
    | cons h l ih =>
      intro n
      show l.foldlM _ (n + 1) = _
      rw [ih, List.length_cons, Nat.add_comm l.length, Nat.add_assoc]
  show (blueSet.foldlM (fun totalWork (_ : Hash) => (.ok (totalWork + 1) : ConsensusResult Nat)) 0
    >>= fun totalWork => pure (Uint192.fromU64 (UInt64.ofNat totalWork))) = _
  rw [count, Nat.zero_add]
  rfl

theorem addBlock_eq (g : GhostDag) (block : DagBlock) {sp : Hash} {blues reds : List Hash}
    (hsp : g.selectParent block.allParents = .ok sp)
    (hset : g.calculateBlueSet block.allParents = (blues, reds)) :
    g.addBlock block =
      .ok (⟨UInt64.ofNat blues.length, Uint192.fromU64 (UInt64.ofNat blues.length), sp, blues, reds,
          (g.commitBlock block blues reds sp).calculateBluesAnticoneSizes blues block.allParents⟩,
        g.commitBlock block blues reds sp) := by
  simp only [addBlock, hset, hsp, calculateBlueWorkProper_eq]
  rfl

theorem addBlock_ok (g : GhostDag) (block : DagBlock) :
    ∃ sp blues reds, g.selectParent block.allParents = .ok sp ∧
      g.calculateBlueSet block.allParents = (blues, reds) ∧
      g.addBlock block =
        .ok (⟨UInt64.ofNat blues.length, Uint192.fromU64 (UInt64.ofNat blues.length), sp, blues,
            reds, (g.commitBlock block blues reds sp).calculateBluesAnticoneSizes blues
              block.allParents⟩,
          g.commitBlock block blues reds sp) := by
  obtain ⟨sp, hsp, -⟩ := g.selectParent_spec block.allParents
  exact ⟨sp, _, _, hsp, rfl, addBlock_eq g block hsp rfl⟩

end GhostDag

/-! ## The writes of `add_block` -/

/-- A relations record without its children list: what `add_block` never changes
once it is written. -/
def BlockRelations.withoutChildren (r : BlockRelations) : BlockRelations := { r with children := [] }

namespace GhostDag

@[simp] theorem addChild_blueScores (g : GhostDag) (c p : Hash) :
    (g.addChild c p).blueScores = g.blueScores := by
  unfold addChild; split <;> rfl

theorem addChild_lookup (g : GhostDag) (c p h : Hash) :
    (g.addChild c p).blockRelations.lookup h =
      (g.blockRelations.lookup h).map fun r =>
        if h = p then { r with children := r.children ++ [c] } else r := by
  unfold addChild
  by_cases e : h = p
  · subst e
    cases hp : g.blockRelations.lookup h <;> simp [hp, Finmap.lookup_insert]
  · cases g.blockRelations.lookup p <;> simp [e, Finmap.lookup_insert_of_ne _ e]

theorem addChild_withoutChildren (g : GhostDag) (c p h : Hash) :
    ((g.addChild c p).blockRelations.lookup h).map BlockRelations.withoutChildren =
      (g.blockRelations.lookup h).map BlockRelations.withoutChildren := by
  rw [addChild_lookup, Option.map_map]
  congr 1
  funext r
  by_cases e : h = p <;> simp [e, BlockRelations.withoutChildren]

theorem addChildren_frame (g : GhostDag) (c : Hash) (parents : List Hash) :
    (parents.foldl (fun g p => g.addChild c p) g).blueScores = g.blueScores ∧
      ∀ h, ((parents.foldl (fun g p => g.addChild c p) g).blockRelations.lookup h).map
          BlockRelations.withoutChildren =
        (g.blockRelations.lookup h).map BlockRelations.withoutChildren := by
  induction parents generalizing g with
  | nil => exact ⟨rfl, fun _ => rfl⟩
  | cons p parents ih =>
    obtain ⟨hs, hr⟩ := ih (g.addChild c p)
    exact ⟨hs.trans (addChild_blueScores g c p), fun h => (hr h).trans (addChild_withoutChildren g c p h)⟩

theorem mem_addChild (g : GhostDag) (c p h : Hash) :
    h ∈ (g.addChild c p).blockRelations ↔ h ∈ g.blockRelations := by
  rw [← Finmap.lookup_isSome, ← Finmap.lookup_isSome, addChild_lookup, Option.isSome_map']

theorem childrenOf_addChild (g : GhostDag) (c p h : Hash) :
    (g.addChild c p).childrenOf h =
      if h = p ∧ h ∈ g.blockRelations then g.childrenOf h ++ [c] else g.childrenOf h := by
  simp only [childrenOf, addChild_lookup]
  cases hh : g.blockRelations.lookup h with
  | none => simp [Finmap.lookup_eq_none.mp hh]
  | some r =>
    have hm : h ∈ g.blockRelations := Finmap.mem_of_lookup_eq_some hh
    by_cases e : h = p
    · subst e
      simp [hm]
    · simp [e]

theorem childrenOf_addChildren (g : GhostDag) (c : Hash) (parents : List Hash) (h : Hash) :
    (parents.foldl (fun g p => g.addChild c p) g).childrenOf h =
      g.childrenOf h ++ if h ∈ g.blockRelations then List.replicate (parents.count h) c else [] := by
  induction parents generalizing g with
  | nil => split <;> simp
  | cons p parents ih =>
    rw [List.foldl_cons, ih, childrenOf_addChild, List.count_cons]
    simp only [mem_addChild]
    by_cases hm : h ∈ g.blockRelations
    · by_cases e : h = p
      · subst e
        simp [hm, List.replicate_succ]
      · simp [hm, e, Ne.symm e]
    · simp [hm]

theorem mem_addChildren (g : GhostDag) (c : Hash) (parents : List Hash) (h : Hash) :
    h ∈ (parents.foldl (fun g p => g.addChild c p) g).blockRelations ↔ h ∈ g.blockRelations := by
  induction parents generalizing g with
  | nil => rfl
  | cons p parents ih => rw [List.foldl_cons, ih, mem_addChild]

theorem mem_commitBlock (g : GhostDag) (block : DagBlock) (blues reds : List Hash) (sp h : Hash) :
    h ∈ (g.commitBlock block blues reds sp).blockRelations ↔ h = block.hash ∨ h ∈ g.blockRelations := by
  rw [commitBlock, mem_addChildren, Finmap.mem_insert]

theorem childrenOf_commitBlock (g : GhostDag) (block : DagBlock) (blues reds : List Hash)
    (sp h : Hash) :
    (g.commitBlock block blues reds sp).childrenOf h =
      (if h = block.hash then [] else g.childrenOf h) ++
        if h = block.hash ∨ h ∈ g.blockRelations then
          List.replicate (block.allParents.count h) block.hash
        else [] := by
  rw [commitBlock, childrenOf_addChildren]
  simp only [Finmap.mem_insert]
  congr 1
  by_cases e : h = block.hash
  · subst e
    simp [childrenOf, Finmap.lookup_insert]
  · simp only [childrenOf, Finmap.lookup_insert_of_ne _ e, if_neg e]

theorem commitBlock_blueScores (g : GhostDag) (block : DagBlock) (blues reds : List Hash) (sp : Hash) :
    (g.commitBlock block blues reds sp).blueScores =
      g.blueScores.insert block.hash (UInt64.ofNat blues.length) :=
  (addChildren_frame _ block.hash block.allParents).1

theorem commitBlock_relations_self (g : GhostDag) (block : DagBlock) (blues reds : List Hash)
    (sp : Hash) :
    ((g.commitBlock block blues reds sp).blockRelations.lookup block.hash).map
        BlockRelations.withoutChildren =
      some ⟨block.allParents, [], blues.contains block.hash, UInt64.ofNat blues.length, some sp,
        blues, reds⟩ := by
  rw [commitBlock, (addChildren_frame _ block.hash block.allParents).2, Finmap.lookup_insert]
  rfl

/-! ## The walk over the past -/

/-- The past of a block as `add_block` walks it: its parents of all levels, then
whatever the parents lists of registered blocks lead to. -/
def InPast (g : GhostDag) (parents : List Hash) : Hash → Prop :=
  Reaches g.parentsOf (fun _ => false) parents

theorem parentsOf_of_not_mem (g : GhostDag) {h : Hash} (hh : h ∉ g.blockRelations.keys) :
    g.parentsOf h = [] := by
  rw [parentsOf, Finmap.lookup_eq_none.mpr (fun hm => hh (Finmap.mem_keys.mpr hm))]
  rfl

theorem classify_foldl (g : GhostDag) (visited blues reds : List Hash) :
    visited.foldl g.classify (blues, reds) =
      (blues ++ visited.filter fun h => decide (g.IsBlueCandidate h),
        reds ++ visited.filter fun h => !decide (g.IsBlueCandidate h)) := by
  induction visited generalizing blues reds with
  | nil => simp
  | cons h visited ih =>
    by_cases hb : g.IsBlueCandidate h <;> simp [classify, hb, ih, List.filter_cons]

theorem calculateBlueSet_spec (g : GhostDag) (parents : List Hash) :
    (g.blueSetWalk parents).visited.Nodup ∧
      (∀ h, h ∈ (g.blueSetWalk parents).visited ↔ g.InPast parents h) ∧
      g.calculateBlueSet parents =
        ((g.blueSetWalk parents).visited.filter fun h => decide (g.IsBlueCandidate h),
          (g.blueSetWalk parents).visited.filter fun h => !decide (g.IsBlueCandidate h)) := by
  obtain ⟨hnd, hmem, hacc⟩ := walk_from g.parentsOf (fun _ => false) g.classify
    (fun h hh => g.parentsOf_of_not_mem hh) parents ([], []) (le_refl _)
  exact ⟨hnd, hmem, by rw [calculateBlueSet, blueSetWalk, hacc, classify_foldl]; rfl⟩

theorem calculateBlueSet_nil (g : GhostDag) : g.calculateBlueSet [] = ([], []) := by
  rw [calculateBlueSet, blueSetWalk]
  cases g.blockRelations.keys.sum fun h => (g.parentsOf h).length <;> rfl

theorem allParents_eq_nil_iff (block : DagBlock) : block.allParents = [] ↔ block.isGenesis = true := by
  simp [DagBlock.allParents, DagBlock.isGenesis]

/-! ## The descendant count -/

/-- The future of a block as `calculate_anticone_size_optimized` walks it: the block,
then whatever the children lists of registered blocks lead to, never through a hash
of `visited`. -/
def InFuture (g : GhostDag) (visited : List Hash) (h : Hash) : Hash → Prop :=
  Reaches g.childrenOf (fun x => decide (x ∈ visited)) [h]

theorem childrenOf_of_not_mem (g : GhostDag) {h : Hash} (hh : h ∉ g.blockRelations.keys) :
    g.childrenOf h = [] := by
  rw [childrenOf, Finmap.lookup_eq_none.mpr (fun hm => hh (Finmap.mem_keys.mpr hm))]
  rfl

private theorem toNat_foldl_countNe (h : Hash) (l : List Hash) (init : UInt64) :
    (l.foldl (fun size current => if current ≠ h then size + 1 else size) init).toNat =
      (init.toNat + (l.filter (· ≠ h)).length) % 2 ^ 64 := by
  induction l generalizing init with
  | nil => exact (Nat.mod_eq_of_lt init.toNat_lt_size).symm
  | cons x l ih =>
    have hsucc : (init + 1).toNat = (init.toNat + 1) % 2 ^ 64 := rfl
    by_cases hx : x = h
    · simp only [List.foldl_cons, hx, ne_eq, not_true_eq_false, if_false, ih,
        List.filter_cons_of_neg, decide_False, Bool.false_eq_true, not_false_eq_true]
    · rw [List.foldl_cons, if_pos hx, ih, hsucc, List.filter_cons_of_pos (by simpa using hx),
        List.length_cons]
      omega

/-- `calculate_anticone_size_optimized` counts, modulo `2 ^ 64`, the hashes other than
the block reached from it over children lists, each once: the block's descendants,
not its anticone. -/
theorem calculateAnticoneSizeOptimized_counts_future (g : GhostDag) (h : Hash) (visited : List Hash) :
    ∃ future : List Hash, future.Nodup ∧ (∀ x, x ∈ future ↔ g.InFuture visited h x ∧ x ≠ h) ∧
      (g.calculateAnticoneSizeOptimized h visited).toNat = future.length % 2 ^ 64 := by
  obtain ⟨hnd, hmem, hacc⟩ := walk_from g.childrenOf (fun x => decide (x ∈ visited))
    (fun size current => if current ≠ h then size + 1 else size)
    (fun x hx => g.childrenOf_of_not_mem hx) [h] (0 : UInt64)
    (le_refl (1 + ∑ x ∈ g.blockRelations.keys, (g.childrenOf x).length))
  refine ⟨_, hnd.filter (· ≠ h), fun x => ?_, ?_⟩
  · rw [List.mem_filter, hmem, decide_eq_true_iff]
    rfl
  · rw [calculateAnticoneSizeOptimized, anticoneWalk, hacc, toNat_foldl_countNe, UInt64.toNat_zero,
      Nat.zero_add]

/-! ## What one call returns -/

/-- `add_block` returns as blue score the length of its blue list, the blocks of the
past that pass the descendant-count test, which is empty for a genesis block; and it
stores that score both in `blue_scores` and in the block's relations. -/
theorem addBlock_blueScore (g : GhostDag) (block : DagBlock) :
    ∃ data g', g.addBlock block = .ok (data, g') ∧
      data.blueScore = UInt64.ofNat data.mergeSetBlues.length ∧
      (∀ h, h ∈ data.mergeSetBlues ↔ g.InPast block.allParents h ∧ g.IsBlueCandidate h) ∧
      (block.isGenesis = true → data.blueScore = 0) ∧
      g'.blueScores.lookup block.hash = some data.blueScore ∧
      (g'.blockRelations.lookup block.hash).map BlockRelations.blueScore = some data.blueScore := by
  obtain ⟨sp, blues, reds, -, hset, hadd⟩ := g.addBlock_ok block
  obtain ⟨-, hmem, hcalc⟩ := g.calculateBlueSet_spec block.allParents
  refine ⟨_, _, hadd, rfl, fun h => ?_, fun hgen => ?_, ?_, ?_⟩
  · rw [hcalc] at hset
    rw [← (Prod.mk.inj hset).1, List.mem_filter, hmem, decide_eq_true_iff]
  · rw [(allParents_eq_nil_iff block).mpr hgen, calculateBlueSet_nil] at hset
    cases hset
    rfl
  · rw [commitBlock_blueScores, Finmap.lookup_insert]
  · have hself := commitBlock_relations_self g block blues reds sp
    calc (_ : Option BlockRelations).map BlockRelations.blueScore
        = ((_ : Option BlockRelations).map BlockRelations.withoutChildren).map
            BlockRelations.blueScore := by rw [Option.map_map]; rfl
      _ = _ := by rw [hself]; rfl

/-- On a chain `G ← A ← C` the score of `C` is not its selected parent's score plus
its blue count plus one: it is 2, with selected parent `A` of stored score 1 and
two blue blocks. -/
theorem addBlock_chain_blueScore :
    (((GhostDag.new 18).addBlocks [⟨Hash.fromSlice [1], [[]]⟩,
        ⟨Hash.fromSlice [2], [[Hash.fromSlice [1]]]⟩]).bind fun r =>
      (r.2.addBlock ⟨Hash.fromSlice [3], [[Hash.fromSlice [2]]]⟩).map fun d =>
        (d.1.blueScore, r.2.storedBlueScore d.1.selectedParent, d.1.mergeSetBlues.length)) =
      .ok (2, 1, 2) := by
  decide

/-- The selected parent is the last parent, over the parents of all levels, with
the largest stored blue score, unknown parents counting as 0; a genesis block
gets the all-zero hash. -/
theorem addBlock_selectedParent (g : GhostDag) (block : DagBlock) :
    ∃ data g', g.addBlock block = .ok (data, g') ∧
      (block.isGenesis = true → data.selectedParent = Hash.default) ∧
      (block.isGenesis = false →
        LastMax g.storedBlueScore block.allParents data.selectedParent) := by
  obtain ⟨sp, hsp, hnil, hmax⟩ := g.selectParent_spec block.allParents
  obtain ⟨blues, reds, hset⟩ : ∃ blues reds, g.calculateBlueSet block.allParents = (blues, reds) :=
    ⟨_, _, rfl⟩
  refine ⟨_, _, addBlock_eq g block hsp hset, fun hgen => hnil ((allParents_eq_nil_iff _).mpr hgen),
    fun hgen => hmax fun hn => ?_⟩
  rw [(allParents_eq_nil_iff _).mp hn] at hgen
  cases hgen

/-- A parent listed only at level 1 is selected over the level-0 parent when its
stored blue score is larger. -/
theorem addBlock_selects_higher_level :
    (((GhostDag.new 18).addBlocks [⟨Hash.fromSlice [1], [[]]⟩,
        ⟨Hash.fromSlice [2], [[Hash.fromSlice [1]]]⟩]).bind fun r =>
      (r.2.addBlock ⟨Hash.fromSlice [3], [[Hash.fromSlice [1]], [Hash.fromSlice [2]]]⟩).map
        fun d => d.1.selectedParent) = .ok (Hash.fromSlice [2]) ∧
    Hash.fromSlice [2] ∉ [Hash.fromSlice [1]] := by
  decide

/-- The blue and red lists are duplicate-free and disjoint, and together they are
the block's whole past: every hash reached from its parents of all levels through
registered parents, the selected parent and its past included. -/
theorem addBlock_mergeSets (g : GhostDag) (block : DagBlock) :
    ∃ data g', g.addBlock block = .ok (data, g') ∧
      data.mergeSetBlues.Nodup ∧ data.mergeSetReds.Nodup ∧
      data.mergeSetBlues.Disjoint data.mergeSetReds ∧
      ∀ h, h ∈ data.mergeSetBlues ∨ h ∈ data.mergeSetReds ↔ g.InPast block.allParents h := by
  obtain ⟨sp, blues, reds, -, hset, hadd⟩ := g.addBlock_ok block
  obtain ⟨hnd, hmem, hcalc⟩ := g.calculateBlueSet_spec block.allParents
  rw [hcalc] at hset
  obtain ⟨rfl, rfl⟩ := Prod.mk.inj hset
  refine ⟨_, _, hadd, hnd.filter _, hnd.filter _, fun h hb hr => ?_, fun h => ?_⟩
  · simp only [List.mem_filter] at hb hr
    simp_all
  · rw [← hmem h]
    simp only [List.mem_filter]
    by_cases hb : g.IsBlueCandidate h <;> simp [hb]

/-- On a chain `G ← A ← C` the lists of `C` hold `A` and `G`, its selected parent
and that parent's past. -/
theorem addBlock_chain_mergeSets :
    (((GhostDag.new 18).addBlocks [⟨Hash.fromSlice [1], [[]]⟩,
        ⟨Hash.fromSlice [2], [[Hash.fromSlice [1]]]⟩]).bind fun r =>
      (r.2.addBlock ⟨Hash.fromSlice [3], [[Hash.fromSlice [2]]]⟩).map fun d =>
        d.1.mergeSetBlues ++ d.1.mergeSetReds) = .ok [Hash.fromSlice [2], Hash.fromSlice [1]] := by
  decide

/-- With `k = 0`, the siblings `A` and `B` of `G` are both blue for their merge
block `C`, though each is in the other's anticone, and `blues_anticone_sizes`
gives both the count 0. -/
theorem addBlock_siblings_blue :
    (((GhostDag.new 0).addBlocks [⟨Hash.fromSlice [1], [[]]⟩,
        ⟨Hash.fromSlice [2], [[Hash.fromSlice [1]]]⟩,
        ⟨Hash.fromSlice [3], [[Hash.fromSlice [1]]]⟩]).bind fun r =>
      (r.2.addBlock ⟨Hash.fromSlice [4], [[Hash.fromSlice [2], Hash.fromSlice [3]]]⟩).map fun d =>
        (d.1.mergeSetBlues, d.1.bluesAnticoneSizes.lookup (Hash.fromSlice [2]),
          d.1.bluesAnticoneSizes.lookup (Hash.fromSlice [3]))) =
      .ok ([Hash.fromSlice [2], Hash.fromSlice [3]], some 0, some 0) := by
  decide

end GhostDag

end Jiopad
