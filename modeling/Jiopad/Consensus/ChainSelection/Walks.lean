import Jiopad.Consensus.ChainSelection.Reorg

/-!
# Termination of the selected-parent walks

`is_in_past_cone`, `find_common_ancestor` and `calculate_reorg_path` follow selected
parents and keep no set of visited hashes.  In a well-formed run each registered block
was added after its selected parent, so the chain from any hash reaches an unregistered
hash within as many steps as there are registered blocks, and every walk ends within
the fuel of the model.
-/

namespace Jiopad

namespace GhostDag

/-- The loop of `GhostDag::is_in_past_cone` from `current`, with fuel. -/
def pastConeWalk (g : GhostDag) (reference : Hash) : Nat → Hash → Option (ConsensusResult Bool)
  | 0, _ => none
  | fuel + 1, current =>
    if current = reference then some (.ok true)
    else
      match g.selectedParentOf current with
      | some parent => pastConeWalk g reference fuel parent
      | none => some (.ok false)

/-- `GhostDag::is_in_past_cone`, private in the source and called nowhere; `none` when
the walk runs out of fuel. -/
def isInPastCone (g : GhostDag) (candidate reference : Hash) : Option (ConsensusResult Bool) :=
  g.pastConeWalk reference g.walkFuel candidate

variable {g : GhostDag}

theorem SelectedChain.selectedParentOf_last {h y : Hash} {pre : List Hash}
    (hch : SelectedChain g h (pre ++ [y])) : g.selectedParentOf y = none := by
  rcases hch.of_append.cons_inv.2 with ⟨-, hs⟩ | ⟨p, -, hp⟩
  · exact hs
  · obtain ⟨t, ht⟩ := hp.exists_eq_cons
    cases ht

/-! ## Each walk along a chain within its fuel -/

theorem pastConeWalk_isSome {h : Hash} {l : List Hash} (hch : SelectedChain g h l)
    (reference : Hash) {fuel : Nat} (hfuel : l.length ≤ fuel) :
    (g.pastConeWalk reference fuel h).isSome := by
  induction hch generalizing fuel with
  | @last h hs =>
    cases fuel with
    | zero => simp at hfuel
    | succ fuel => by_cases e : h = reference <;> simp [pastConeWalk, e, hs]
  | @cons h p l hs _ ih =>
    cases fuel with
    | zero => simp at hfuel
    | succ fuel =>
      have hfuel' : l.length ≤ fuel := by simpa using hfuel
      by_cases e : h = reference <;> simp [pastConeWalk, e, hs, ih hfuel']

theorem pathTo_isSome {h : Hash} {l : List Hash} (hch : SelectedChain g h l) (target : Hash)
    {fuel : Nat} (hfuel : l.length ≤ fuel) : (g.pathTo target fuel h).isSome := by
  induction hch generalizing fuel with
  | @last h hs =>
    cases fuel with
    | zero => simp at hfuel
    | succ fuel => by_cases e : h = target <;> simp [pathTo, e, hs]
  | @cons h p l hs _ ih =>
    cases fuel with
    | zero => simp at hfuel
    | succ fuel =>
      have hfuel' : l.length ≤ fuel := by simpa using hfuel
      obtain ⟨path, hpath⟩ := Option.isSome_iff_exists.mp (ih hfuel')
      by_cases e : h = target <;> simp [pathTo, e, hs, hpath]

theorem pastConeWalk_eq {h : Hash} {l : List Hash} (hch : SelectedChain g h l) (reference : Hash)
    {fuel : Nat} (hfuel : l.length ≤ fuel) :
    g.pastConeWalk reference fuel h = some (.ok (decide (reference ∈ l))) := by
  induction hch generalizing fuel with
  | @last h hs =>
    obtain ⟨fuel, rfl⟩ := Nat.exists_eq_add_of_lt (show 0 < fuel by simpa using hfuel)
    by_cases e : h = reference
    · simp [pastConeWalk, e]
    · simp [pastConeWalk, e, hs, Ne.symm e]
  | @cons h p l hs _ ih =>
    obtain ⟨fuel, rfl⟩ := Nat.exists_eq_add_of_lt (show 0 < fuel by simp at hfuel; omega)
    by_cases e : h = reference
    · simp [pastConeWalk, e]
    · simp [pastConeWalk, e, hs, Ne.symm e, ih (show l.length ≤ fuel by simp at hfuel; omega)]

/-! ## Chains in a well-formed run -/

theorem exists_selectedChain_unregistered (k : KType) {blocks : List DagBlock}
    (hrun : WellFormedRun blocks) {results : List (Hash × GhostDagData)}
    (hg : (new k).addBlocks blocks = .ok (results, g)) (h : Hash) :
    ∃ pre last, g.SelectedChain h (pre ++ [last]) ∧ last ∉ g.blockRelations ∧
      pre.length ≤ g.blockRelations.keys.card := by
  by_cases hh : h ∈ g.blockRelations
  · obtain ⟨l, hl⟩ := exists_chainToZero k hrun hg hh
    obtain ⟨pre, last, rfl⟩ : ∃ pre last, l = pre ++ [last] :=
      by simpa only [List.concat_eq_append] using
        (List.eq_nil_or_concat l).resolve_left (List.ne_nil_of_mem hl.zero_mem)
    refine ⟨pre, last, hl.chain, fun hm => ?_, ?_⟩
    · obtain ⟨-, -, -, p, hp, -⟩ := addBlocks_selectedParentOf k hg last hm
      rw [hl.chain.selectedParentOf_last] at hp
      cases hp
    · have := hl.length_le
      simp only [walkFuel, List.length_append, List.length_singleton] at this
      omega
  · exact ⟨[], h, .last (selectedParentOf_of_not_mem hh), hh, Nat.zero_le _⟩

theorem exists_selectedChain_walkFuel (k : KType) {blocks : List DagBlock}
    (hrun : WellFormedRun blocks) {results : List (Hash × GhostDagData)}
    (hg : (new k).addBlocks blocks = .ok (results, g)) (h : Hash) :
    ∃ l, g.SelectedChain h l ∧ l.length ≤ g.walkFuel := by
  obtain ⟨pre, last, hch, -, hlen⟩ := exists_selectedChain_unregistered k hrun hg h
  exact ⟨_, hch, by simp [walkFuel, hlen]⟩

/-- In a well-formed run, `is_in_past_cone(candidate, reference)` returns `Ok` of
whether the reference is on the chain of selected parents from the candidate, the
candidate included; it reads no other parent. -/
theorem isInPastCone_eq (k : KType) {blocks : List DagBlock} (hrun : WellFormedRun blocks)
    {results : List (Hash × GhostDagData)} (hg : (new k).addBlocks blocks = .ok (results, g))
    (candidate reference : Hash) :
    ∃ l, g.SelectedChain candidate l ∧
      g.isInPastCone candidate reference = some (.ok (decide (reference ∈ l))) := by
  obtain ⟨l, hl, hlen⟩ := exists_selectedChain_walkFuel k hrun hg candidate
  exact ⟨l, hl, pastConeWalk_eq hl reference hlen⟩

theorem isInPastCone_eq_child :
    ∃ results g, (GhostDag.new 18).addBlocks [⟨Hash.fromSlice [1], [[]]⟩,
        ⟨Hash.fromSlice [2], [[Hash.fromSlice [1]]]⟩] = .ok (results, g) ∧
      WellFormedRun [⟨Hash.fromSlice [1], [[]]⟩, ⟨Hash.fromSlice [2], [[Hash.fromSlice [1]]]⟩] ∧
      ∀ candidate reference : Hash, ∃ l, g.SelectedChain candidate l ∧
        g.isInPastCone candidate reference = some (.ok (decide (reference ∈ l))) := by
  obtain ⟨results, g, hg, -⟩ := (GhostDag.new 18).addBlocks_ok
    [⟨Hash.fromSlice [1], [[]]⟩, ⟨Hash.fromSlice [2], [[Hash.fromSlice [1]]]⟩]
  have hwf : WellFormedRun [⟨Hash.fromSlice [1], [[]]⟩, ⟨Hash.fromSlice [2], [[Hash.fromSlice [1]]]⟩] :=
    ⟨by decide, by decide, by decide⟩
  exact ⟨results, g, hg, hwf, isInPastCone_eq 18 hwf hg⟩

end GhostDag

namespace ChainSelector

open GhostDag

/-- In a run of `add_block` calls that adds every parent before its child, one block per
hash and none with the all-zero hash, the chain of selected parents from any hash
reaches an unregistered hash within as many steps as there are registered blocks, and
`is_in_past_cone`, `find_common_ancestor` and `calculate_reorg_path` end on all
arguments. -/
theorem selectedParentWalks_terminate (k : KType) {blocks : List DagBlock}
    (hrun : WellFormedRun blocks) {results : List (Hash × GhostDagData)} {cs : ChainSelector}
    (hg : (GhostDag.new k).addBlocks blocks = .ok (results, cs.ghostdag)) :
    (∀ h : Hash, ∃ pre last, cs.ghostdag.SelectedChain h (pre ++ [last]) ∧
      last ∉ cs.ghostdag.blockRelations ∧ pre.length ≤ cs.ghostdag.blockRelations.keys.card) ∧
    ∀ a b : Hash, (cs.ghostdag.isInPastCone a b).isSome ∧ (cs.findCommonAncestor a b).isSome ∧
      (cs.calculateReorgPath a b).isSome := by
  refine ⟨exists_selectedChain_unregistered k hrun hg, fun a b => ?_⟩
  obtain ⟨la, hla, hlena⟩ := exists_selectedChain_walkFuel k hrun hg a
  obtain ⟨lb, hlb, hlenb⟩ := exists_selectedChain_walkFuel k hrun hg b
  have hfind : cs.findCommonAncestor a b =
      some (((lb.find? (· ∈ la)).map .ok).getD (.error .NoCommonAncestor)) := by
    rw [findCommonAncestor, collectAncestors_eq hla hlena, Option.some_bind,
      findInAncestors_eq la hlb hlenb]
  refine ⟨pastConeWalk_isSome hla b hlena, by simp [hfind], ?_⟩
  rw [calculateReorgPath, hfind, Option.some_bind]
  cases lb.find? (· ∈ la) with
  | none => rfl
  | some c =>
    obtain ⟨removed, hr⟩ := Option.isSome_iff_exists.mp (pathTo_isSome hla c hlena)
    obtain ⟨added, ha⟩ := Option.isSome_iff_exists.mp (pathTo_isSome hlb c hlenb)
    simp [hr, ha]

theorem selectedParentWalks_terminate_child :
    ∃ results g, (GhostDag.new 18).addBlocks [⟨Hash.fromSlice [1], [[]]⟩,
        ⟨Hash.fromSlice [2], [[Hash.fromSlice [1]]]⟩] = .ok (results, g) ∧
      WellFormedRun [⟨Hash.fromSlice [1], [[]]⟩, ⟨Hash.fromSlice [2], [[Hash.fromSlice [1]]]⟩] ∧
      (∀ h : Hash, ∃ pre last, g.SelectedChain h (pre ++ [last]) ∧ last ∉ g.blockRelations ∧
        pre.length ≤ g.blockRelations.keys.card) ∧
      ∀ a b : Hash, (g.isInPastCone a b).isSome ∧ ((ChainSelector.new g).findCommonAncestor a b).isSome ∧
        ((ChainSelector.new g).calculateReorgPath a b).isSome := by
  obtain ⟨results, g, hg, -⟩ := (GhostDag.new 18).addBlocks_ok
    [⟨Hash.fromSlice [1], [[]]⟩, ⟨Hash.fromSlice [2], [[Hash.fromSlice [1]]]⟩]
  have hwf : WellFormedRun [⟨Hash.fromSlice [1], [[]]⟩, ⟨Hash.fromSlice [2], [[Hash.fromSlice [1]]]⟩] :=
    ⟨by decide, by decide, by decide⟩
  exact ⟨results, g, hg, hwf,
    selectedParentWalks_terminate 18 hwf (hg : _ = .ok (results, (ChainSelector.new g).ghostdag))⟩

end ChainSelector

end Jiopad
