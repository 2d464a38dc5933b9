import Jiopad.Consensus.ChainSelection.Selector

/-!
# The virtual state

`update_virtual_state` reads the virtual blue score under the read lock and then
writes the block's data under the write lock when its header score is strictly larger.
Called in sequence it ends at the first block with the largest score.  Concurrent calls
are modelled by their two lock sections as atomic steps in a schedule: an interleaving
can lose the larger update, yet the state is always the starting one or the one some
finished call wrote.
-/

namespace Jiopad

def FirstMax {α : Type} (key : α → UInt64) (bs : List α) (b : α) : Prop :=
  ∃ pre post, bs = pre ++ b :: post ∧ (∀ x ∈ pre, key x < key b) ∧ ∀ x ∈ post, key x ≤ key b

namespace VirtualState

def updateAll (state : VirtualState) (blocks : List NewBlock) : VirtualState :=
  blocks.foldl (fun state newBlock => state.update newBlock state.blueScore) state

theorem updateAll_spec (state : VirtualState) (blocks : List NewBlock) :
    (∀ b ∈ blocks, b.blueScore ≤ state.blueScore) ∧ state.updateAll blocks = state ∨
    ∃ b, FirstMax NewBlock.blueScore blocks b ∧ state.blueScore < b.blueScore ∧
      state.updateAll blocks = b.virtualState := by
  induction blocks generalizing state with
  | nil => exact .inl ⟨by simp, rfl⟩
  | cons b blocks ih =>
    simp only [updateAll, List.foldl_cons, update] at ih ⊢
    split
    · next hlt =>
      refine .inr ?_
      rcases ih b.virtualState with ⟨hle, heq⟩ | ⟨b', ⟨pre, post, rfl, hpre, hpost⟩, hlt', heq⟩
      · exact ⟨b, ⟨[], _, rfl, by simp, hle⟩, hlt, heq⟩
      · refine ⟨b', ⟨b :: pre, post, rfl, ?_, hpost⟩, UInt64.lt_trans hlt hlt', heq⟩
        exact List.forall_mem_cons.mpr ⟨hlt', hpre⟩
    · next hle =>
      have hle : b.blueScore ≤ state.blueScore := UInt64.not_lt.mp hle
      rcases ih state with ⟨hle', heq⟩ | ⟨b', ⟨pre, post, rfl, hpre, hpost⟩, hlt', heq⟩
      · exact .inl ⟨List.forall_mem_cons.mpr ⟨hle, hle'⟩, heq⟩
      · refine .inr ⟨b', ⟨b :: pre, post, rfl, ?_, hpost⟩, hlt', heq⟩
        exact List.forall_mem_cons.mpr ⟨UInt64.lt_of_le_of_lt hle hlt', hpre⟩

end VirtualState

namespace ChainSelector

def updateVirtualStates (cs : ChainSelector) (blocks : List NewBlock) : ChainSelector :=
  blocks.foldl (fun cs newBlock => (cs.updateVirtualState newBlock).2) cs

theorem virtualState_updateVirtualStates (cs : ChainSelector) (blocks : List NewBlock) :
    (cs.updateVirtualStates blocks).virtualState = cs.virtualState.updateAll blocks := by
  induction blocks generalizing cs with
  | nil => rfl
  | cons b blocks ih => exact ih _

/-- Blocks passed one after another from `ChainSelector::new`: the virtual state stays
the default one when every block has blue score 0, and otherwise it is the first block
with the largest header blue score, its hash, its scores and its merge set. -/
theorem updateVirtualStates_new (ghostdag : GhostDag) (blocks : List NewBlock) :
    (∀ b ∈ blocks, b.blueScore = 0) ∧
      ((new ghostdag).updateVirtualStates blocks).virtualState = VirtualState.default ∨
    ∃ b, FirstMax NewBlock.blueScore blocks b ∧ 0 < b.blueScore ∧
      ((new ghostdag).updateVirtualStates blocks).virtualState = b.virtualState := by
  rw [virtualState_updateVirtualStates]
  rcases VirtualState.updateAll_spec VirtualState.default blocks with ⟨hle, heq⟩ | h
  · exact .inl ⟨fun b hb => UInt64.eq_zero_of_le_zero (hle b hb), heq⟩
  · exact .inr h

/-- Genesis alone, of blue score 0 and DAA score 5: the virtual state stays the default
one, with the all-zero tip and DAA score 0. -/
theorem updateVirtualStates_genesis :
    ((new (GhostDag.new 18)).updateVirtualStates
      [⟨Hash.fromSlice [1], 0, 5, none⟩]).virtualState = VirtualState.default := by
  decide

end ChainSelector

inductive UpdatePhase where
  | pending
  | read (currentBlueScore : UInt64)
  | done
  deriving DecidableEq

/-- Concurrent calls of `update_virtual_state`, call `i` on the block `blocks[i]`: the
virtual state and the phase of each call. -/
structure UpdateRace where
  state : VirtualState
  phases : List UpdatePhase
  deriving DecidableEq

namespace UpdateRace

def init (state : VirtualState) (n : Nat) : UpdateRace := ⟨state, List.replicate n .pending⟩

/-- One atomic step of call `i`: its read of the virtual blue score under the read
lock, then its write under the write lock.  A step of a finished call, or of no call,
changes nothing. -/
def step (blocks : List NewBlock) (r : UpdateRace) (i : Nat) : UpdateRace :=
  match r.phases[i]?, blocks[i]? with
  | some .pending, some _ => { r with phases := r.phases.set i (.read r.state.blueScore) }
  | some (.read currentBlueScore), some newBlock =>
    ⟨r.state.update newBlock currentBlueScore, r.phases.set i .done⟩
  | _, _ => r

def run (blocks : List NewBlock) (r : UpdateRace) (schedule : List Nat) : UpdateRace :=
  schedule.foldl (step blocks) r

theorem run_append (blocks : List NewBlock) (r : UpdateRace) (s₁ s₂ : List Nat) :
    run blocks r (s₁ ++ s₂) = run blocks (run blocks r s₁) s₂ :=
  List.foldl_append _ _ _ _

theorem run_read_write {blocks : List NewBlock} {r : UpdateRace} {i : Nat} {newBlock : NewBlock}
    (hpending : r.phases[i]? = some .pending) (hblock : blocks[i]? = some newBlock) :
    run blocks r [i, i] =
      ⟨r.state.update newBlock r.state.blueScore, r.phases.set i .done⟩ := by
  obtain ⟨hlt, -⟩ := List.getElem?_eq_some_iff.mp hpending
  have hread : (r.phases.set i (.read r.state.blueScore))[i]? = some (.read r.state.blueScore) := by
    rw [List.getElem?_set_self hlt]
  simp only [run, List.foldl_cons, List.foldl_nil, step, hpending, hblock, hread, List.set_set]

theorem run_serial (blocks : List NewBlock) (m : Nat) :
    ∀ (k : Nat) (r : UpdateRace), k + m ≤ blocks.length →
      (∀ j, k ≤ j → j < k + m → r.phases[j]? = some .pending) →
      (run blocks r ((List.range' k m).flatMap fun i => [i, i])).state =
        r.state.updateAll ((blocks.drop k).take m) := by
  induction m with
  | zero => intro k r _ _; rfl
  | succ m ih =>
    intro k r hlen hpending
    have hk : k < blocks.length := by omega
    rw [List.range'_succ, List.flatMap_cons, run_append,
      run_read_write (hpending k (Nat.le_refl k) (by omega)) (List.getElem?_eq_getElem hk),
      List.drop_eq_getElem_cons hk, List.take_succ_cons]
    refine ih (k + 1) _ (by omega) fun j hj hj' => ?_
    rw [List.getElem?_set_ne (by omega)]
    exact hpending j (by omega) (by omega)

/-- Calls that do not overlap: from `n` calls none started, the schedule
`0, 0, 1, 1, …` gives `update_virtual_state` on the blocks in turn. -/
theorem run_init_serial (blocks : List NewBlock) (state : VirtualState) :
    (run blocks (init state blocks.length)
      ((List.range blocks.length).flatMap fun i => [i, i])).state = state.updateAll blocks := by
  rw [List.range_eq_range', run_serial blocks _ 0 _ (by omega) fun j _ hj => ?_, List.drop_zero,
    List.take_length]
  · rfl
  · rw [init, List.getElem?_replicate, if_pos (by omega)]

/-- Two calls from the default state, on blocks of blue score 5 and 3, both reading
before either writes: the virtual score goes from 0 to 5, then back to 3, and ends
at 3 with both calls done. -/
theorem run_lost_update :
    (run [⟨Hash.fromSlice [1], 5, 0, none⟩, ⟨Hash.fromSlice [2], 3, 0, none⟩]
      (init VirtualState.default 2) [0, 1, 0]).state.blueScore = 5 ∧
    (run [⟨Hash.fromSlice [1], 5, 0, none⟩, ⟨Hash.fromSlice [2], 3, 0, none⟩]
      (init VirtualState.default 2) [0, 1, 0, 1]) =
      ⟨⟨Hash.fromSlice [2], 3, 0, []⟩, [.done, .done]⟩ := by
  decide

/-! ## Every schedule -/

def Written (blocks : List NewBlock) (state : VirtualState) (r : UpdateRace) : Prop :=
  r.state = state ∨ ∃ (i : Nat) (newBlock : NewBlock), blocks[i]? = some newBlock ∧
    r.phases[i]? = some UpdatePhase.done ∧ r.state = newBlock.virtualState

theorem step_phases_done {blocks : List NewBlock} {r : UpdateRace} {i j : Nat}
    (hj : r.phases[j]? = some .done) : (step blocks r i).phases[j]? = some .done := by
  unfold step
  split
  · next hi _ =>
    rw [List.getElem?_set_ne fun e => by rw [← e, hi] at hj; cases hj]
    exact hj
  · next hi _ =>
    by_cases e : i = j
    · subst e
      rw [List.getElem?_set_self (List.getElem?_eq_some_iff.mp hi).1]
    · rw [List.getElem?_set_ne e]
      exact hj
  · exact hj

theorem written_step {blocks : List NewBlock} {state : VirtualState} {r : UpdateRace}
    (h : Written blocks state r) (i : Nat) : Written blocks state (step blocks r i) := by
  have hkeep : (step blocks r i).state = r.state ∨
      ∃ newBlock, blocks[i]? = some newBlock ∧ (step blocks r i).phases[i]? = some UpdatePhase.done ∧
        (step blocks r i).state = newBlock.virtualState := by
    unfold step
    split
    · exact .inl rfl
    · next hi hb =>
      unfold VirtualState.update
      split
      · exact .inr ⟨_, hb, List.getElem?_set_self (List.getElem?_eq_some_iff.mp hi).1, rfl⟩
      · exact .inl rfl
    · exact .inl rfl
  rcases hkeep with hkeep | ⟨newBlock, hb, hdone, hs⟩
  · rcases h with h | ⟨j, newBlock, hb, hdone, hs⟩
    · exact Or.inl (hkeep.trans h)
    · exact Or.inr ⟨j, newBlock, hb, step_phases_done hdone, hkeep.trans hs⟩
  · exact Or.inr ⟨i, newBlock, hb, hdone, hs⟩

/-- Under every schedule of `update_virtual_state` calls the virtual state is the one
they started from, or the state one finished call wrote for its block: no interleaving
makes up a state, though some lose an update. -/
theorem run_written (blocks : List NewBlock) (state : VirtualState) (schedule : List Nat) :
    (run blocks (init state blocks.length) schedule).state = state ∨
      ∃ (i : Nat) (newBlock : NewBlock), blocks[i]? = some newBlock ∧
        (run blocks (init state blocks.length) schedule).phases[i]? = some UpdatePhase.done ∧
        (run blocks (init state blocks.length) schedule).state = newBlock.virtualState := by
  suffices ∀ r, Written blocks state r → Written blocks state (run blocks r schedule) from
    this _ (Or.inl rfl)
  induction schedule with
  | nil => exact fun r h => h
  | cons i schedule ih => exact fun r h => ih _ (written_step h i)

end UpdateRace

end Jiopad
