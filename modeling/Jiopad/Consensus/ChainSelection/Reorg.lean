import Jiopad.Consensus.ChainSelection.Selector
import Jiopad.Consensus.Ghostdag.Relations

/-!
# Reorganisation paths

`find_common_ancestor` collects the selected-parent chain of its first block, down
to the all-zero hash `select_parent` gives a genesis block, and returns the first
hash of the second block's chain that it collected; `calculate_reorg_path` walks both
chains down to it.  In a well-formed run (parents first, one block per hash, none with
the all-zero hash) both chains end at the all-zero hash within the fuel, so the walks
never fail, and `handle_reorg` installs the virtual state computed for the new tip.
-/

namespace Jiopad

namespace GhostDag

/-! ## Chains of selected parents -/

/-- `l` is the chain of selected parents from `h`: `h`, then the chain from its
selected parent, down to a hash without one. -/
inductive SelectedChain (g : GhostDag) : Hash → List Hash → Prop
  | last {h : Hash} : g.selectedParentOf h = none → SelectedChain g h [h]
  | cons {h p : Hash} {l : List Hash} :
      g.selectedParentOf h = some p → SelectedChain g p l → SelectedChain g h (h :: l)

theorem mem_of_selectedParentOf {g : GhostDag} {h p : Hash} (hp : g.selectedParentOf h = some p) :
    h ∈ g.blockRelations := by
  unfold selectedParentOf getRelations at hp
  cases hl : g.blockRelations.lookup h with
  | none => rw [hl] at hp; cases hp
  | some r => exact Finmap.mem_of_lookup_eq_some hl

theorem selectedParentOf_of_not_mem {g : GhostDag} {h : Hash} (hh : h ∉ g.blockRelations) :
    g.selectedParentOf h = none := by
  rw [selectedParentOf, getRelations, Finmap.lookup_eq_none.mpr hh]
  rfl

namespace SelectedChain

variable {g : GhostDag} {h : Hash} {l : List Hash}

theorem cons_inv {x : Hash} (hch : SelectedChain g h (x :: l)) :
    x = h ∧ (l = [] ∧ g.selectedParentOf h = none ∨
      ∃ p, g.selectedParentOf h = some p ∧ SelectedChain g p l) := by
  cases hch with
  | last hs => exact ⟨rfl, .inl ⟨rfl, hs⟩⟩
  | cons hs hch => exact ⟨rfl, .inr ⟨_, hs, hch⟩⟩

theorem exists_eq_cons (hch : SelectedChain g h l) : ∃ t, l = h :: t := by
  cases hch <;> exact ⟨_, rfl⟩

theorem unique {l₁ l₂ : List Hash} (h₁ : SelectedChain g h l₁) (h₂ : SelectedChain g h l₂) :
    l₁ = l₂ := by
  induction h₁ generalizing l₂ with
  | last hs =>
    cases h₂ with
    | last _ => rfl
    | cons hs' _ => rw [hs] at hs'; cases hs'
  | cons hs _ ih =>
    cases h₂ with
    | last hs' => rw [hs] at hs'; cases hs'
    | cons hs' h₂ =>
      rw [hs, Option.some.injEq] at hs'
      subst hs'
      rw [ih h₂]

theorem of_append {pre post : List Hash} {x : Hash} (hch : SelectedChain g h (pre ++ x :: post)) :
    SelectedChain g x (x :: post) := by
  induction pre generalizing h with
  | nil => exact (hch.cons_inv.1 ▸ hch)
  | cons y pre ih =>
    rcases hch.cons_inv.2 with ⟨hl, -⟩ | ⟨p, -, hp⟩
    · simp at hl
    · exact ih hp

theorem split (hch : SelectedChain g h l) {c : Hash} (hc : c ∈ l) :
    ∃ pre lc, l = pre ++ lc ∧ c ∉ pre ∧ SelectedChain g c lc := by
  induction hch with
  | last hs =>
    obtain rfl := List.mem_singleton.mp hc
    exact ⟨[], _, rfl, List.not_mem_nil _, .last hs⟩
  | @cons h p l hs hch ih =>
    by_cases e : c = h
    · subst e
      exact ⟨[], _, rfl, List.not_mem_nil _, .cons hs hch⟩
    · obtain ⟨pre, lc, rfl, hpre, hlc⟩ := ih ((List.mem_cons.mp hc).resolve_left e)
      exact ⟨h :: pre, lc, rfl, by simp [e, hpre], hlc⟩

theorem mem_of_ne_last {pre post : List Hash} {y z : Hash}
    (hch : SelectedChain g h (pre ++ y :: z :: post)) : y ∈ g.blockRelations := by
  rcases (of_append hch).cons_inv.2 with ⟨hl, -⟩ | ⟨p, hp, -⟩
  · cases hl
  · exact mem_of_selectedParentOf hp

end SelectedChain

/-! ## The three walks along a chain -/

variable {g : GhostDag} {h : Hash} {l : List Hash}

theorem collectAncestors_eq (hch : SelectedChain g h l) {fuel : Nat} (hfuel : l.length ≤ fuel) :
    g.collectAncestors fuel h = some l := by
  induction hch generalizing fuel with
  | last hs =>
    cases fuel with
    | zero => simp at hfuel
    | succ fuel => simp only [collectAncestors, hs]
  | cons hs _ ih =>
    cases fuel with
    | zero => simp at hfuel
    | succ fuel =>
      simp only [List.length_cons, Nat.add_le_add_iff_right] at hfuel
      simp only [collectAncestors, hs, ih hfuel, Option.map_some']

theorem findInAncestors_eq (ancestors : List Hash) (hch : SelectedChain g h l) {fuel : Nat}
    (hfuel : l.length ≤ fuel) :
    g.findInAncestors ancestors fuel h =
      some (((l.find? (· ∈ ancestors)).map .ok).getD (.error .NoCommonAncestor)) := by
  induction hch generalizing fuel with
  | @last h hs =>
    cases fuel with
    | zero => simp at hfuel
    | succ fuel => by_cases hm : h ∈ ancestors <;> simp [findInAncestors, hs, hm]
  | @cons h p l hs _ ih =>
    cases fuel with
    | zero => simp at hfuel
    | succ fuel =>
      simp only [List.length_cons, Nat.add_le_add_iff_right] at hfuel
      by_cases hm : h ∈ ancestors
      · simp [findInAncestors, hm]
      · simp only [findInAncestors, if_neg hm, hs, ih hfuel]
        simp [hm]

theorem pathTo_eq {c : Hash} {pre post : List Hash} (hch : SelectedChain g h (pre ++ c :: post))
    (hpre : c ∉ pre) {fuel : Nat} (hfuel : pre.length < fuel) :
    g.pathTo c fuel h = some pre := by
  induction pre generalizing h fuel with
  | nil =>
    obtain ⟨rfl, -⟩ := hch.cons_inv
    cases fuel with
    | zero => cases hfuel
    | succ fuel => simp [pathTo]
  | cons x pre ih =>
    obtain ⟨rfl, hl⟩ := hch.cons_inv
    have hne : x ≠ c := fun e => hpre (e ▸ List.mem_cons_self _ _)
    rcases hl with ⟨hl, -⟩ | ⟨p, hp, hch'⟩
    · simp at hl
    · cases fuel with
      | zero => cases hfuel
      | succ fuel =>
        have hfuel' : pre.length < fuel := by simpa using hfuel
        simp only [pathTo, if_neg hne, hp,
          ih hch' (fun hm => hpre (List.mem_cons_of_mem _ hm)) hfuel', Option.map_some']

/-! ## Selected parents across a run -/

theorem selectedParentOf_commitBlock (g : GhostDag) (block : DagBlock) (blues reds : List Hash)
    (sp h : Hash) :
    (g.commitBlock block blues reds sp).selectedParentOf h =
      if h = block.hash then some sp else g.selectedParentOf h := by
  have key : ∀ g' : GhostDag, g'.selectedParentOf h =
      ((g'.blockRelations.lookup h).map BlockRelations.withoutChildren).bind
        BlockRelations.selectedParent := fun g' => by
    unfold selectedParentOf getRelations
    cases g'.blockRelations.lookup h <;> rfl
  rw [key, key g]
  split
  · next e => subst e; rw [commitBlock_relations_self]; rfl
  · next e => rw [commitBlock, (addChildren_frame _ _ _).2, Finmap.lookup_insert_of_ne _ e]

theorem addBlocks_selectedParentOf (k : KType) {blocks : List DagBlock}
    {results : List (Hash × GhostDagData)} {g : GhostDag}
    (hg : (new k).addBlocks blocks = .ok (results, g)) :
    ∀ h ∈ g.blockRelations, ∃ X ∈ blocks, X.hash = h ∧ ∃ p, g.selectedParentOf h = some p ∧
      (X.allParents = [] ∧ p = Hash.default ∨ p ∈ X.allParents) := by
  induction blocks using List.reverseRecOn generalizing results g with
  | nil => cases hg; simp [new, Finmap.not_mem_empty]
  | append_singleton blocks B ih =>
    obtain ⟨_, g₁, sp, blues, reds, hrun, hsp, rfl⟩ := addBlocks_concat_inv hg
    intro h hh
    rw [selectedParentOf_commitBlock]
    split
    · next e =>
      subst e
      obtain ⟨p, hp, hnil, hmax⟩ := g₁.selectParent_spec B.allParents
      rw [hsp, Except.ok.injEq] at hp
      subst hp
      refine ⟨B, List.mem_append_right _ (List.mem_singleton_self _), rfl, sp, rfl, ?_⟩
      by_cases hps : B.allParents = []
      · exact .inl ⟨hps, hnil hps⟩
      · exact .inr (hmax hps).mem
    · next e =>
      obtain ⟨X, hX, hXh, hp⟩ := ih hrun h (((mem_commitBlock _ _ _ _ _ _).mp hh).resolve_left e)
      exact ⟨X, List.mem_append_left _ hX, hXh, hp⟩

/-! ## Well-formed runs -/

def ParentsFirst : List Hash → List DagBlock → Prop
  | _, [] => True
  | seen, block :: blocks =>
    (∀ p ∈ block.allParents, p ∈ seen) ∧ ParentsFirst (block.hash :: seen) blocks

instance decidableParentsFirst : (seen : List Hash) → (blocks : List DagBlock) →
    Decidable (ParentsFirst seen blocks)
  | _, [] => isTrue trivial
  | seen, block :: blocks =>
    have := decidableParentsFirst (block.hash :: seen) blocks
    inferInstanceAs (Decidable (_ ∧ _))

theorem ParentsFirst.mem_of_eq_append {seen : List Hash} {pre post : List DagBlock} {X : DagBlock}
    (h : ParentsFirst seen (pre ++ X :: post)) :
    ∀ p ∈ X.allParents, p ∈ seen ∨ p ∈ pre.map DagBlock.hash := by
  induction pre generalizing seen with
  | nil => exact fun p hp => .inl (h.1 p hp)
  | cons Y pre ih =>
    intro p hp
    rcases ih h.2 p hp with hp | hp
    · rcases List.mem_cons.mp hp with rfl | hp
      · exact .inr (List.mem_cons_self _ _)
      · exact .inl hp
    · exact .inr (List.mem_cons_of_mem _ hp)

/-- The runs the reorganisation walks are written for: every parent is added before
its children, a hash is one block, and no block has the all-zero hash. -/
structure WellFormedRun (blocks : List DagBlock) : Prop where
  parents_first : ParentsFirst [] blocks
  hash_inj : ∀ X ∈ blocks, ∀ Y ∈ blocks, X.hash = Y.hash → X = Y
  hash_ne_default : ∀ X ∈ blocks, X.hash ≠ Hash.default

def rank (blocks : List DagBlock) (h : Hash) : Nat := (blocks.map DagBlock.hash).indexOf h

theorem WellFormedRun.rank_lt {blocks : List DagBlock} (hrun : WellFormedRun blocks)
    {X : DagBlock} (hX : X ∈ blocks) {p : Hash} (hp : p ∈ X.allParents) :
    p ∈ blocks.map DagBlock.hash ∧ rank blocks p < rank blocks X.hash := by
  have hiL := List.indexOf_lt_length.mpr (List.mem_map_of_mem DagBlock.hash hX)
  obtain ⟨i, hi_def⟩ : ∃ i, rank blocks X.hash = i := ⟨_, rfl⟩
  have hi : i < blocks.length := by rw [← hi_def]; simpa using hiL
  have hY : blocks[i] = X := by
    refine hrun.hash_inj _ (List.getElem_mem _) _ hX ?_
    have h := List.getElem_indexOf hiL
    simp only [List.getElem_map] at h
    subst hi_def
    exact h
  have hsplit : blocks = blocks.take i ++ X :: blocks.drop (i + 1) := by
    conv_lhs => rw [← List.take_append_drop i blocks, List.drop_eq_getElem_cons hi, hY]
  have hmem : p ∈ (blocks.take i).map DagBlock.hash := by
    have hpre := hrun.parents_first
    rw [hsplit] at hpre
    exact (hpre.mem_of_eq_append p hp).resolve_left (List.not_mem_nil _)
  have hL : blocks.map DagBlock.hash =
      (blocks.take i).map DagBlock.hash ++ (blocks.drop i).map DagBlock.hash := by
    rw [← List.map_append, List.take_append_drop]
  refine ⟨List.map_subset _ (List.take_subset _ _) hmem, hi_def ▸ ?_⟩
  calc rank blocks p = ((blocks.take i).map DagBlock.hash).indexOf p := by
        rw [rank, hL, List.indexOf_append_of_mem hmem]
    _ < ((blocks.take i).map DagBlock.hash).length := List.indexOf_lt_length.mpr hmem
    _ = i := by simp [Nat.le_of_lt hi]

/-- The chain of selected parents from `h` in a well-formed run: each hash once, all
registered but the all-zero hash, which it reaches. -/
structure ChainToZero (g : GhostDag) (h : Hash) (l : List Hash) : Prop where
  chain : SelectedChain g h l
  nodup : l.Nodup
  mem : ∀ y ∈ l, y ∈ g.blockRelations ∨ y = Hash.default
  zero_mem : Hash.default ∈ l

theorem ChainToZero.length_le {g : GhostDag} {h : Hash} {l : List Hash} (hl : ChainToZero g h l) :
    l.length ≤ g.walkFuel := by
  have hsub : l.toFinset ⊆ insert Hash.default g.blockRelations.keys := fun y hy => by
    rcases hl.mem y (List.mem_toFinset.mp hy) with hm | rfl
    · exact Finset.mem_insert_of_mem (Finmap.mem_keys.mpr hm)
    · exact Finset.mem_insert_self _ _
  calc l.length = l.toFinset.card := (List.toFinset_card_of_nodup hl.nodup).symm
    _ ≤ (insert Hash.default g.blockRelations.keys).card := Finset.card_le_card hsub
    _ ≤ g.blockRelations.keys.card + 1 := Finset.card_insert_le _ _

theorem exists_chainToZero (k : KType) {blocks : List DagBlock} (hrun : WellFormedRun blocks)
    {results : List (Hash × GhostDagData)} {g : GhostDag}
    (hg : (new k).addBlocks blocks = .ok (results, g)) {h : Hash} (hh : h ∈ g.blockRelations) :
    ∃ l, ChainToZero g h l := by
  have hsel := addBlocks_selectedParentOf k hg
  have hzero : Hash.default ∉ g.blockRelations := fun hm => by
    obtain ⟨X, hX, e⟩ := (mem_addBlocks hg _).mp hm
    exact hrun.hash_ne_default X hX e
  suffices H : ∀ n h, rank blocks h = n → h ∈ g.blockRelations →
      ∃ l, ChainToZero g h l ∧ ∀ y ∈ l, y = Hash.default ∨ rank blocks y ≤ rank blocks h from
    (H _ h rfl hh).imp fun _ => And.left
  intro n
  induction n using Nat.strong_induction_on with
  | _ n ih =>
    intro h hn hh
    have hne : h ≠ Hash.default := fun e => hzero (e ▸ hh)
    obtain ⟨X, hX, rfl, p, hsp, hp⟩ := hsel h hh
    rcases hp with ⟨-, rfl⟩ | hp
    · refine ⟨[X.hash, Hash.default], ⟨.cons hsp (.last (selectedParentOf_of_not_mem hzero)),
        by simpa using hne, by simp [hh], by simp⟩, by simp⟩
    · obtain ⟨hpL, hlt⟩ := hrun.rank_lt hX hp
      have hpm : p ∈ g.blockRelations := (mem_addBlocks hg p).mpr (by simpa using hpL)
      obtain ⟨lp, hlp, hrank⟩ := ih _ (hn ▸ hlt) p rfl hpm
      have hnot : X.hash ∉ lp := fun hm => by
        rcases hrank _ hm with e | hle
        · exact hne e
        · exact absurd hlt (Nat.not_lt.mpr hle)
      refine ⟨X.hash :: lp, ⟨.cons hsp hlp.chain, List.nodup_cons.mpr ⟨hnot, hlp.nodup⟩, ?_,
        List.mem_cons_of_mem _ hlp.zero_mem⟩, ?_⟩
      · exact List.forall_mem_cons.mpr ⟨.inl hh, hlp.mem⟩
      · refine List.forall_mem_cons.mpr ⟨.inr (Nat.le_refl _), fun y hy => ?_⟩
        exact (hrank y hy).imp_right fun hle => Nat.le_of_lt (Nat.lt_of_le_of_lt hle hlt)

theorem mem_of_first_shared {g : GhostDag} {n c x : Hash} {pre post lo : List Hash}
    (hch : SelectedChain g n (pre ++ c :: post)) (hpre : ∀ y ∈ pre, y ∉ lo)
    (hx : x ∈ g.blockRelations) (hxo : x ∈ lo) (hxn : x ∈ pre ++ c :: post) :
    c ∈ g.blockRelations := by
  rcases List.mem_append.mp hxn with hxp | hxp
  · exact absurd hxo (hpre x hxp)
  · rcases List.mem_cons.mp hxp with rfl | hxp
    · exact hx
    · obtain ⟨z, post, rfl⟩ := List.exists_cons_of_ne_nil (List.ne_nil_of_mem hxp)
      exact hch.mem_of_ne_last

end GhostDag

namespace ChainSelector

open GhostDag

theorem findCommonAncestor_eq_first (cs : ChainSelector) {o n : Hash} {lo ln : List Hash}
    (hlo : ChainToZero cs.ghostdag o lo) (hln : ChainToZero cs.ghostdag n ln) :
    ∃ pre c post, ln = pre ++ c :: post ∧ c ∈ lo ∧ (∀ x ∈ pre, x ∉ lo) ∧
      cs.findCommonAncestor o n = some (.ok c) := by
  obtain ⟨c, hc⟩ : ∃ c, ln.find? (· ∈ lo) = some c := by
    cases hf : ln.find? (· ∈ lo) with
    | none => exact absurd hlo.zero_mem (by simpa using List.find?_eq_none.mp hf _ hln.zero_mem)
    | some c => exact ⟨c, rfl⟩
  obtain ⟨hcl, pre, post, hsplit, hpre⟩ := List.find?_eq_some.mp hc
  refine ⟨pre, c, post, hsplit, by simpa using hcl, fun x hx => by simpa using hpre x hx, ?_⟩
  rw [findCommonAncestor, collectAncestors_eq hlo.chain hlo.length_le, Option.some_bind,
    findInAncestors_eq lo hln.chain hln.length_le, hc]
  rfl

/-- `find_common_ancestor` in a well-formed run never fails: it returns the first hash
of `n`'s chain on `o`'s chain, a registered block exactly when the chains share one,
and otherwise the all-zero hash. -/
theorem findCommonAncestor_spec (k : KType) {blocks : List DagBlock} (hrun : WellFormedRun blocks)
    {results : List (Hash × GhostDagData)} {cs : ChainSelector}
    (hg : (GhostDag.new k).addBlocks blocks = .ok (results, cs.ghostdag)) {o n : Hash}
    (ho : o ∈ cs.ghostdag.blockRelations) (hn : n ∈ cs.ghostdag.blockRelations) :
    ∃ lo ln pre c post, cs.ghostdag.SelectedChain o lo ∧ cs.ghostdag.SelectedChain n ln ∧
      cs.findCommonAncestor o n = some (.ok c) ∧ c ∈ lo ∧ ln = pre ++ c :: post ∧
      (∀ x ∈ pre, x ∉ lo) ∧
      (c ∈ cs.ghostdag.blockRelations ↔ ∃ x ∈ cs.ghostdag.blockRelations, x ∈ lo ∧ x ∈ ln) ∧
      (c ∉ cs.ghostdag.blockRelations → c = Hash.default) := by
  obtain ⟨lo, hlo⟩ := exists_chainToZero k hrun hg ho
  obtain ⟨ln, hln⟩ := exists_chainToZero k hrun hg hn
  obtain ⟨pre, c, post, rfl, hcl, hpre, hfind⟩ := cs.findCommonAncestor_eq_first hlo hln
  refine ⟨lo, _, pre, c, post, hlo.chain, hln.chain, hfind, hcl, rfl, hpre,
    ⟨fun hc => ⟨c, hc, hcl, by simp⟩,
      fun ⟨_, hx, hxo, hxn⟩ => mem_of_first_shared hln.chain hpre hx hxo hxn⟩,
    fun hc => (hlo.mem c hcl).resolve_left hc⟩

theorem findCommonAncestor_spec_fork :
    ∃ results g, (GhostDag.new 18).addBlocks [⟨Hash.fromSlice [1], [[]]⟩,
        ⟨Hash.fromSlice [2], [[Hash.fromSlice [1]]]⟩, ⟨Hash.fromSlice [3], [[Hash.fromSlice [1]]]⟩] =
        .ok (results, g) ∧
      WellFormedRun [⟨Hash.fromSlice [1], [[]]⟩, ⟨Hash.fromSlice [2], [[Hash.fromSlice [1]]]⟩,
        ⟨Hash.fromSlice [3], [[Hash.fromSlice [1]]]⟩] ∧
      Hash.fromSlice [2] ∈ g.blockRelations ∧ Hash.fromSlice [3] ∈ g.blockRelations ∧
      ∃ lo ln pre c post, g.SelectedChain (Hash.fromSlice [2]) lo ∧
        g.SelectedChain (Hash.fromSlice [3]) ln ∧
        (ChainSelector.new g).findCommonAncestor (Hash.fromSlice [2]) (Hash.fromSlice [3]) =
          some (.ok c) ∧ c ∈ lo ∧ ln = pre ++ c :: post ∧ (∀ x ∈ pre, x ∉ lo) ∧
        (c ∈ g.blockRelations ↔ ∃ x ∈ g.blockRelations, x ∈ lo ∧ x ∈ ln) ∧
        (c ∉ g.blockRelations → c = Hash.default) := by
  obtain ⟨results, g, hg, -⟩ := (GhostDag.new 18).addBlocks_ok [⟨Hash.fromSlice [1], [[]]⟩,
    ⟨Hash.fromSlice [2], [[Hash.fromSlice [1]]]⟩, ⟨Hash.fromSlice [3], [[Hash.fromSlice [1]]]⟩]
  have hmem : ((GhostDag.new 18).addBlocks [⟨Hash.fromSlice [1], [[]]⟩,
      ⟨Hash.fromSlice [2], [[Hash.fromSlice [1]]]⟩, ⟨Hash.fromSlice [3], [[Hash.fromSlice [1]]]⟩]).map
      (fun r => decide (Hash.fromSlice [2] ∈ r.2.blockRelations ∧ Hash.fromSlice [3] ∈ r.2.blockRelations)) =
      .ok true := by
    decide
  rw [hg] at hmem
  simp only [Except.map, Except.ok.injEq, decide_eq_true_eq] at hmem
  have hwf : WellFormedRun [⟨Hash.fromSlice [1], [[]]⟩, ⟨Hash.fromSlice [2], [[Hash.fromSlice [1]]]⟩,
      ⟨Hash.fromSlice [3], [[Hash.fromSlice [1]]]⟩] := ⟨by decide, by decide, by decide⟩
  exact ⟨results, g, hg, hwf, hmem.1, hmem.2, findCommonAncestor_spec 18 hwf
    (hg : _ = .ok (results, (ChainSelector.new g).ghostdag)) hmem.1 hmem.2⟩

/-- Two genesis blocks: their chains share no registered block, and
`find_common_ancestor` returns the all-zero hash, which is not registered. -/
theorem findCommonAncestor_two_genesis :
    WellFormedRun [⟨Hash.fromSlice [1], [[]]⟩, ⟨Hash.fromSlice [2], [[]]⟩] ∧
    ((GhostDag.new 18).addBlocks [⟨Hash.fromSlice [1], [[]]⟩, ⟨Hash.fromSlice [2], [[]]⟩]).map
      (fun r => ((ChainSelector.new r.2).findCommonAncestor (Hash.fromSlice [1]) (Hash.fromSlice [2]),
        decide (Hash.default ∈ r.2.blockRelations))) = .ok (some (.ok Hash.default), false) :=
  ⟨⟨by decide, by decide, by decide⟩, by decide⟩

theorem calculateReorgPath_of_chains (cs : ChainSelector) {o n x : Hash} {lo ln : List Hash}
    (hlo : ChainToZero cs.ghostdag o lo) (hln : ChainToZero cs.ghostdag n ln)
    (hx : x ∈ cs.ghostdag.blockRelations) (hxo : x ∈ lo) (hxn : x ∈ ln) :
    ∃ added removed c S, cs.calculateReorgPath o n = some (.ok (added, removed)) ∧
      c ∈ cs.ghostdag.blockRelations ∧
      cs.ghostdag.SelectedChain o (removed ++ c :: S) ∧
      cs.ghostdag.SelectedChain n (added.reverse ++ c :: S) ∧
      ∀ y ∈ removed, y ∉ added := by
  obtain ⟨pre, c, post, rfl, hcl, hpre, hfind⟩ := cs.findCommonAncestor_eq_first hlo hln
  have hcn : SelectedChain cs.ghostdag c (c :: post) := hln.chain.of_append
  obtain ⟨removed, lc, rfl, hcr, hlc⟩ := hlo.chain.split hcl
  obtain rfl := hlc.unique hcn
  have hcpre : c ∉ pre := fun hm => hpre c hm hcl
  have hremoved := pathTo_eq hlo.chain hcr (Nat.lt_of_lt_of_le (by simp) hlo.length_le)
  have hadded := pathTo_eq hln.chain hcpre (Nat.lt_of_lt_of_le (by simp) hln.length_le)
  refine ⟨pre.reverse, removed, c, post, ?_, mem_of_first_shared hln.chain hpre hx hxo hxn,
    hlo.chain, by simpa using hln.chain,
    fun y hyr hya => hpre y (List.mem_reverse.mp hya) (List.mem_append_left _ hyr)⟩
  rw [calculateReorgPath, hfind, Option.some_bind]
  simp only [hremoved, hadded, Option.some_bind, Option.map_some']

/-- The reorganisation path in a well-formed run, between registered blocks whose
chains share a registered block: `removed` is `o`'s chain down to the lowest shared
block `c`, tip first, `added` is `n`'s chain down to `c`, ancestor first, and below
`c` the two chains are one. -/
theorem calculateReorgPath_spec (k : KType) {blocks : List DagBlock} (hrun : WellFormedRun blocks)
    {results : List (Hash × GhostDagData)} {cs : ChainSelector}
    (hg : (GhostDag.new k).addBlocks blocks = .ok (results, cs.ghostdag)) {o n : Hash}
    (ho : o ∈ cs.ghostdag.blockRelations) (hn : n ∈ cs.ghostdag.blockRelations)
    (hshare : ∃ lo ln x, cs.ghostdag.SelectedChain o lo ∧ cs.ghostdag.SelectedChain n ln ∧
      x ∈ cs.ghostdag.blockRelations ∧ x ∈ lo ∧ x ∈ ln) :
    ∃ added removed c S, cs.calculateReorgPath o n = some (.ok (added, removed)) ∧
      c ∈ cs.ghostdag.blockRelations ∧
      cs.ghostdag.SelectedChain o (removed ++ c :: S) ∧
      cs.ghostdag.SelectedChain n (added.reverse ++ c :: S) ∧
      ∀ x ∈ removed, x ∉ added := by
  obtain ⟨lo, hlo⟩ := exists_chainToZero k hrun hg ho
  obtain ⟨ln, hln⟩ := exists_chainToZero k hrun hg hn
  obtain ⟨lo', ln', x, hlo', hln', hx, hxo, hxn⟩ := hshare
  exact cs.calculateReorgPath_of_chains hlo hln hx (hlo'.unique hlo.chain ▸ hxo)
    (hln'.unique hln.chain ▸ hxn)

theorem calculateReorgPath_fork :
    ∃ results g, (GhostDag.new 18).addBlocks [⟨Hash.fromSlice [1], [[]]⟩,
        ⟨Hash.fromSlice [2], [[Hash.fromSlice [1]]]⟩, ⟨Hash.fromSlice [3], [[Hash.fromSlice [1]]]⟩] =
        .ok (results, g) ∧
      WellFormedRun [⟨Hash.fromSlice [1], [[]]⟩, ⟨Hash.fromSlice [2], [[Hash.fromSlice [1]]]⟩,
        ⟨Hash.fromSlice [3], [[Hash.fromSlice [1]]]⟩] ∧
      Hash.fromSlice [2] ∈ g.blockRelations ∧ Hash.fromSlice [3] ∈ g.blockRelations ∧
      (∃ lo ln x, g.SelectedChain (Hash.fromSlice [2]) lo ∧ g.SelectedChain (Hash.fromSlice [3]) ln ∧
        x ∈ g.blockRelations ∧ x ∈ lo ∧ x ∈ ln) ∧
      ∃ added removed c S, (ChainSelector.new g).calculateReorgPath (Hash.fromSlice [2])
          (Hash.fromSlice [3]) = some (.ok (added, removed)) ∧
        c ∈ g.blockRelations ∧ g.SelectedChain (Hash.fromSlice [2]) (removed ++ c :: S) ∧
        g.SelectedChain (Hash.fromSlice [3]) (added.reverse ++ c :: S) ∧
        ∀ x ∈ removed, x ∉ added := by
  obtain ⟨results, g, hg, -⟩ := (GhostDag.new 18).addBlocks_ok [⟨Hash.fromSlice [1], [[]]⟩,
    ⟨Hash.fromSlice [2], [[Hash.fromSlice [1]]]⟩, ⟨Hash.fromSlice [3], [[Hash.fromSlice [1]]]⟩]
  have hfacts : ((GhostDag.new 18).addBlocks [⟨Hash.fromSlice [1], [[]]⟩,
      ⟨Hash.fromSlice [2], [[Hash.fromSlice [1]]]⟩, ⟨Hash.fromSlice [3], [[Hash.fromSlice [1]]]⟩]).map
      (fun r => (decide (Hash.fromSlice [1] ∈ r.2.blockRelations ∧ Hash.fromSlice [2] ∈ r.2.blockRelations ∧
          Hash.fromSlice [3] ∈ r.2.blockRelations),
        r.2.selectedParentOf (Hash.fromSlice [2]), r.2.selectedParentOf (Hash.fromSlice [3]),
        r.2.selectedParentOf (Hash.fromSlice [1]), r.2.selectedParentOf Hash.default)) =
      .ok (true, some (Hash.fromSlice [1]), some (Hash.fromSlice [1]), some Hash.default, none) := by
    decide
  rw [hg] at hfacts
  simp only [Except.map, Except.ok.injEq, Prod.mk.injEq, decide_eq_true_eq] at hfacts
  obtain ⟨⟨hG, hA, hB⟩, hspA, hspB, hspG, hsp0⟩ := hfacts
  have hwf : WellFormedRun [⟨Hash.fromSlice [1], [[]]⟩, ⟨Hash.fromSlice [2], [[Hash.fromSlice [1]]]⟩,
      ⟨Hash.fromSlice [3], [[Hash.fromSlice [1]]]⟩] := ⟨by decide, by decide, by decide⟩
  have hshare : ∃ lo ln x, g.SelectedChain (Hash.fromSlice [2]) lo ∧
      g.SelectedChain (Hash.fromSlice [3]) ln ∧ x ∈ g.blockRelations ∧ x ∈ lo ∧ x ∈ ln :=
    ⟨_, _, _, .cons hspA (.cons hspG (.last hsp0)), .cons hspB (.cons hspG (.last hsp0)), hG,
      by simp, by simp⟩
  exact ⟨results, g, hg, hwf, hA, hB, hshare, calculateReorgPath_spec 18 hwf
    (hg : _ = .ok (results, (ChainSelector.new g).ghostdag)) hA hB hshare⟩

/-- `handle_reorg` in a well-formed run, between registered blocks whose chains share a
registered block: it succeeds and installs the virtual state computed for the new tip. -/
theorem handleReorg_ok (k : KType) {blocks : List DagBlock} (hrun : WellFormedRun blocks)
    {results : List (Hash × GhostDagData)} {cs : ChainSelector}
    (hg : (GhostDag.new k).addBlocks blocks = .ok (results, cs.ghostdag)) {o n x : Hash}
    {lo ln : List Hash} (ho : o ∈ cs.ghostdag.blockRelations) (hn : n ∈ cs.ghostdag.blockRelations)
    (hlo : cs.ghostdag.SelectedChain o lo) (hln : cs.ghostdag.SelectedChain n ln)
    (hx : x ∈ cs.ghostdag.blockRelations) (hxo : x ∈ lo) (hxn : x ∈ ln) :
    cs.handleReorg o n =
      some (.ok (), { cs with virtualState := cs.calculateVirtualStateForTip n }) := by
  obtain ⟨lo', hlo'⟩ := exists_chainToZero k hrun hg ho
  obtain ⟨ln', hln'⟩ := exists_chainToZero k hrun hg hn
  obtain ⟨added, removed, -, -, hpath, -⟩ := cs.calculateReorgPath_of_chains hlo' hln' hx
    (hlo.unique hlo'.chain ▸ hxo) (hln.unique hln'.chain ▸ hxn)
  rw [handleReorg, hpath]
  rfl

theorem handleReorg_ok_fork :
    ∃ results g, (GhostDag.new 18).addBlocks [⟨Hash.fromSlice [1], [[]]⟩,
        ⟨Hash.fromSlice [2], [[Hash.fromSlice [1]]]⟩, ⟨Hash.fromSlice [3], [[Hash.fromSlice [1]]]⟩] =
        .ok (results, g) ∧
      WellFormedRun [⟨Hash.fromSlice [1], [[]]⟩, ⟨Hash.fromSlice [2], [[Hash.fromSlice [1]]]⟩,
        ⟨Hash.fromSlice [3], [[Hash.fromSlice [1]]]⟩] ∧
      Hash.fromSlice [2] ∈ g.blockRelations ∧ Hash.fromSlice [3] ∈ g.blockRelations ∧
      g.SelectedChain (Hash.fromSlice [2]) [Hash.fromSlice [2], Hash.fromSlice [1], Hash.default] ∧
      g.SelectedChain (Hash.fromSlice [3]) [Hash.fromSlice [3], Hash.fromSlice [1], Hash.default] ∧
      Hash.fromSlice [1] ∈ g.blockRelations ∧
      Hash.fromSlice [1] ∈ [Hash.fromSlice [2], Hash.fromSlice [1], Hash.default] ∧
      Hash.fromSlice [1] ∈ [Hash.fromSlice [3], Hash.fromSlice [1], Hash.default] ∧
      (ChainSelector.new g).handleReorg (Hash.fromSlice [2]) (Hash.fromSlice [3]) =
        some (.ok (), { ChainSelector.new g with
          virtualState := (ChainSelector.new g).calculateVirtualStateForTip (Hash.fromSlice [3]) }) := by
  obtain ⟨results, g, hg, -⟩ := (GhostDag.new 18).addBlocks_ok [⟨Hash.fromSlice [1], [[]]⟩,
    ⟨Hash.fromSlice [2], [[Hash.fromSlice [1]]]⟩, ⟨Hash.fromSlice [3], [[Hash.fromSlice [1]]]⟩]
  have hfacts : ((GhostDag.new 18).addBlocks [⟨Hash.fromSlice [1], [[]]⟩,
      ⟨Hash.fromSlice [2], [[Hash.fromSlice [1]]]⟩, ⟨Hash.fromSlice [3], [[Hash.fromSlice [1]]]⟩]).map
      (fun r => (decide (Hash.fromSlice [1] ∈ r.2.blockRelations ∧ Hash.fromSlice [2] ∈ r.2.blockRelations ∧
          Hash.fromSlice [3] ∈ r.2.blockRelations),
        r.2.selectedParentOf (Hash.fromSlice [2]), r.2.selectedParentOf (Hash.fromSlice [3]),
        r.2.selectedParentOf (Hash.fromSlice [1]), r.2.selectedParentOf Hash.default)) =
      .ok (true, some (Hash.fromSlice [1]), some (Hash.fromSlice [1]), some Hash.default, none) := by
    decide
  rw [hg] at hfacts
  simp only [Except.map, Except.ok.injEq, Prod.mk.injEq, decide_eq_true_eq] at hfacts
  obtain ⟨⟨hG, hA, hB⟩, hspA, hspB, hspG, hsp0⟩ := hfacts
  have hwf : WellFormedRun [⟨Hash.fromSlice [1], [[]]⟩, ⟨Hash.fromSlice [2], [[Hash.fromSlice [1]]]⟩,
      ⟨Hash.fromSlice [3], [[Hash.fromSlice [1]]]⟩] := ⟨by decide, by decide, by decide⟩
  have hlo : g.SelectedChain (Hash.fromSlice [2]) [Hash.fromSlice [2], Hash.fromSlice [1], Hash.default] :=
    .cons hspA (.cons hspG (.last hsp0))
  have hln : g.SelectedChain (Hash.fromSlice [3]) [Hash.fromSlice [3], Hash.fromSlice [1], Hash.default] :=
    .cons hspB (.cons hspG (.last hsp0))
  have hxo : Hash.fromSlice [1] ∈ [Hash.fromSlice [2], Hash.fromSlice [1], Hash.default] := by simp
  have hxn : Hash.fromSlice [1] ∈ [Hash.fromSlice [3], Hash.fromSlice [1], Hash.default] := by simp
  exact ⟨results, g, hg, hwf, hA, hB, hlo, hln, hG, hxo, hxn, handleReorg_ok 18 hwf
    (hg : _ = .ok (results, (ChainSelector.new g).ghostdag)) hA hB hlo hln hG hxo hxn⟩

end ChainSelector

end Jiopad
