import Jiopad.Consensus.ChainSelection.Selector
import Jiopad.Consensus.Ghostdag.Run

/-!
# Tip selection

`get_all_tips` keeps, in the relations map's iteration order, the registered
hashes whose children list is empty.  `select_tip` fails with `NoTips` exactly
when there is none, and otherwise returns the last of them with the largest
stored blue score: it compares nothing else, neither blue work nor hashes, so
between tips of equal score the iteration order decides.
-/

namespace Jiopad

namespace IsIterationOrder

variable {g : GhostDag} {order : List Hash}

theorem mem_iff (horder : IsIterationOrder g order) (h : Hash) :
    h ∈ order ↔ h ∈ g.blockRelations := by
  rw [← Multiset.mem_coe, horder, Finset.mem_val, Finmap.mem_keys]

end IsIterationOrder

namespace ChainSelector

theorem isTip_iff (g : GhostDag) (h : Hash) :
    ((g.getRelations h).any fun relations => relations.children.isEmpty) = true ↔
      h ∈ g.blockRelations ∧ g.childrenOf h = [] := by
  rw [GhostDag.childrenOf, ← GhostDag.getRelations, ← Finmap.lookup_isSome, ← GhostDag.getRelations]
  cases g.getRelations h <;> simp

theorem getAllTips_spec (cs : ChainSelector) {order : List Hash}
    (horder : IsIterationOrder cs.ghostdag order) :
    ∃ tips, cs.getAllTips order = .ok tips ∧ tips.Sublist order ∧
      ∀ h, h ∈ tips ↔ h ∈ cs.ghostdag.blockRelations ∧ cs.ghostdag.childrenOf h = [] := by
  refine ⟨_, rfl, List.filter_sublist _, fun h => ?_⟩
  rw [List.mem_filter, isTip_iff, horder.mem_iff]
  exact ⟨fun h' => h'.2, fun h' => ⟨h'.1, h'⟩⟩

/-- `select_tip`, for every engine state and every iteration order of its relations
map: `NoTips` when no registered block has an empty children list, and otherwise the
last such block, in that order, with the largest stored blue score. -/
theorem selectTip_spec (cs : ChainSelector) {order : List Hash}
    (horder : IsIterationOrder cs.ghostdag order) :
    ∃ tips, cs.getAllTips order = .ok tips ∧ tips.Sublist order ∧
      (∀ h, h ∈ tips ↔ h ∈ cs.ghostdag.blockRelations ∧ cs.ghostdag.childrenOf h = []) ∧
      (tips = [] ∧ cs.selectTip order = .error .NoTips ∨
        ∃ t, cs.selectTip order = .ok t ∧ LastMax cs.ghostdag.storedBlueScore tips t) := by
  obtain ⟨tips, htips, hsub, hmem⟩ := cs.getAllTips_spec horder
  refine ⟨tips, htips, hsub, hmem, ?_⟩
  rw [selectTip, htips]
  by_cases hne : tips = []
  · exact .inl ⟨hne, by rw [hne]; rfl⟩
  · obtain ⟨t, ht, hlast⟩ := maxByKey_lastMax cs.ghostdag.storedBlueScore hne
    have hkey : (fun tip => (cs.ghostdag.getBlueScore tip).getD 0) = cs.ghostdag.storedBlueScore := rfl
    exact .inr ⟨t, by simp only [bind, Except.bind]; rw [hkey, ht]; rfl, hlast⟩

theorem selectTip_spec_two_tips :
    ∃ results g, (GhostDag.new 18).addBlocks [⟨Hash.fromSlice [1], [[]]⟩, ⟨Hash.fromSlice [2], [[]]⟩] =
        .ok (results, g) ∧
      IsIterationOrder (ChainSelector.new g).ghostdag [Hash.fromSlice [1], Hash.fromSlice [2]] ∧
      ∃ tips, (ChainSelector.new g).getAllTips [Hash.fromSlice [1], Hash.fromSlice [2]] = .ok tips ∧
        tips.Sublist [Hash.fromSlice [1], Hash.fromSlice [2]] ∧
        (∀ h, h ∈ tips ↔ h ∈ (ChainSelector.new g).ghostdag.blockRelations ∧
          (ChainSelector.new g).ghostdag.childrenOf h = []) ∧
        (tips = [] ∧ (ChainSelector.new g).selectTip [Hash.fromSlice [1], Hash.fromSlice [2]] = .error .NoTips ∨
          ∃ t, (ChainSelector.new g).selectTip [Hash.fromSlice [1], Hash.fromSlice [2]] = .ok t ∧
            LastMax (ChainSelector.new g).ghostdag.storedBlueScore tips t) := by
  obtain ⟨results, g, hg, -⟩ :=
    (GhostDag.new 18).addBlocks_ok [⟨Hash.fromSlice [1], [[]]⟩, ⟨Hash.fromSlice [2], [[]]⟩]
  have horder : ((GhostDag.new 18).addBlocks [⟨Hash.fromSlice [1], [[]]⟩, ⟨Hash.fromSlice [2], [[]]⟩]).map
      (fun r => decide (IsIterationOrder r.2 [Hash.fromSlice [1], Hash.fromSlice [2]])) = .ok true := by
    decide
  rw [hg] at horder
  simp only [Except.map, Except.ok.injEq, decide_eq_true_eq] at horder
  exact ⟨results, g, hg, horder, selectTip_spec _ horder⟩

/-- Two genesis blocks, of equal blue score and blue work: iterated in hash order,
`select_tip` returns the larger hash. -/
theorem selectTip_equal_tips :
    ((GhostDag.new 18).addBlocks [⟨Hash.fromSlice [1], [[]]⟩, ⟨Hash.fromSlice [2], [[]]⟩]).map
      (fun r => (decide (IsIterationOrder r.2 [Hash.fromSlice [1], Hash.fromSlice [2]]),
        (ChainSelector.new r.2).selectTip [Hash.fromSlice [1], Hash.fromSlice [2]],
        r.1.map fun d => (d.2.blueScore, d.2.blueWork))) =
      .ok (true, .ok (Hash.fromSlice [2]), [(0, Uint192.fromU64 0), (0, Uint192.fromU64 0)]) ∧
    List.Lex (· < ·) (Hash.fromSlice [1]).bytes (Hash.fromSlice [2]).bytes := by
  decide

end ChainSelector

end Jiopad
