import Jiopad.Consensus.Utxo.Collection

/-!
# UTXO views

`UtxoView` of `utxo_view.rs` copies the collection's map under its read lock, so a view
taken while `apply_diff` runs copies the map after some of its write-locked steps
(`snapshotDuring`).  `validate_tx` checks each input in order, presence first and then
repetition, returns at the first failure, and has no case for coinbase transactions.
-/

namespace Jiopad

structure UtxoView where
  utxos : UtxoMap
  deriving DecidableEq

namespace UtxoView

/-- `UtxoView::new_from_collection`: one read-locked clone of the map. -/
def newFromCollection (collection : UtxoCollection) : UtxoView := ⟨collection.utxos⟩

/-- `UtxoView::apply_diff`: inserts overwrite, removes of absent outpoints do nothing. -/
def applyDiff (v : UtxoView) (diff : UtxoDiff) : UtxoView :=
  ⟨eraseAll (insertAll v.utxos diff.added) diff.removed⟩

/-- `UtxoView::validate_tx`: per input, in order, the outpoint must be in the view
and must not repeat an earlier input's. -/
def validateTx (v : UtxoView) (tx : Transaction) : Except UtxoError Unit :=
  go [] tx.inputs
where
  go (seen : List OutPoint) : List TxInput → Except UtxoError Unit
    | [] => .ok ()
    | input :: inputs =>
      let outpoint : OutPoint := ⟨input.prevTxHash, input.index⟩
      if outpoint ∉ v.utxos then .error (.NotFound ⟨outpoint.txHash, outpoint.index⟩)
      else if outpoint ∈ seen then .error (.AlreadySpent ⟨outpoint.txHash, outpoint.index⟩)
      else go (outpoint :: seen) inputs

/-! ## What `validate_tx` accepts -/

variable (v : UtxoView)

theorem validateTx_go_cons (seen : List OutPoint) (input : TxInput) (inputs : List TxInput) :
    validateTx.go v seen (input :: inputs) =
      if input.outpoint ∉ v.utxos then .error (.NotFound ⟨input.prevTxHash, input.index⟩)
      else if input.outpoint ∈ seen then .error (.AlreadySpent ⟨input.prevTxHash, input.index⟩)
      else validateTx.go v (input.outpoint :: seen) inputs :=
  rfl

theorem validateTx_go_append (seen : List OutPoint) {pre : List TxInput} (rest : List TxInput)
    (hpre : ∀ input ∈ pre, input.outpoint ∈ v.utxos ∧ input.outpoint ∉ seen)
    (hnd : (pre.map TxInput.outpoint).Nodup) :
    validateTx.go v seen (pre ++ rest) =
      validateTx.go v ((pre.map TxInput.outpoint).reverse ++ seen) rest := by
  induction pre generalizing seen with
  | nil => rfl
  | cons input pre ih =>
    obtain ⟨hin, hseen⟩ := hpre input (List.mem_cons_self _ _)
    rw [List.map_cons, List.nodup_cons] at hnd
    have hrest : ∀ i ∈ pre, i.outpoint ∈ v.utxos ∧ i.outpoint ∉ input.outpoint :: seen := fun i hi =>
      have h := hpre i (List.mem_cons_of_mem _ hi)
      ⟨h.1, List.not_mem_cons_of_ne_of_not_mem (fun e => hnd.1 (e ▸ List.mem_map_of_mem _ hi)) h.2⟩
    rw [List.cons_append, validateTx_go_cons, if_neg (not_not.mpr hin), if_neg hseen,
      ih _ hrest hnd.2]
    simp

theorem inputs_good_or_first_failure (inputs : List TxInput) :
    ((∀ input ∈ inputs, input.outpoint ∈ v.utxos) ∧ (inputs.map TxInput.outpoint).Nodup) ∨
    ∃ pre input post, inputs = pre ++ input :: post ∧
      (∀ i ∈ pre, i.outpoint ∈ v.utxos) ∧ (pre.map TxInput.outpoint).Nodup ∧
      (input.outpoint ∉ v.utxos ∨ input.outpoint ∈ pre.map TxInput.outpoint) := by
  induction inputs using List.reverseRecOn with
  | nil => exact .inl ⟨fun _ h => absurd h (List.not_mem_nil _), List.nodup_nil⟩
  | append_singleton l x ih =>
    rcases ih with ⟨hl, hnd⟩ | ⟨pre, i, post, rfl, hpre, hnd, hi⟩
    · by_cases hx : x.outpoint ∈ v.utxos ∧ x.outpoint ∉ l.map TxInput.outpoint
      · refine .inl ⟨fun i hi => ?_, ?_⟩
        · rcases List.mem_append.mp hi with hi | hi
          exacts [hl i hi, List.mem_singleton.mp hi ▸ hx.1]
        · rw [List.map_append, List.map_singleton, List.nodup_append]
          exact ⟨hnd, List.nodup_singleton _, List.disjoint_singleton.mpr hx.2⟩
      · exact .inr ⟨l, x, [], rfl, hl, hnd, by tauto⟩
    · exact .inr ⟨pre, i, post ++ [x], by simp, hpre, hnd, hi⟩

theorem validateTx_of_good {tx : Transaction} (hin : ∀ input ∈ tx.inputs, input.outpoint ∈ v.utxos)
    (hnd : (tx.inputs.map TxInput.outpoint).Nodup) : v.validateTx tx = .ok () := by
  rw [validateTx, ← List.append_nil tx.inputs,
    validateTx_go_append v [] [] (fun i hi => ⟨hin i hi, List.not_mem_nil _⟩) hnd]
  rfl

theorem validateTx_of_first_failure {tx : Transaction} {pre : List TxInput} {input : TxInput}
    {post : List TxInput} (hdec : tx.inputs = pre ++ input :: post)
    (hpre : ∀ i ∈ pre, i.outpoint ∈ v.utxos) (hnd : (pre.map TxInput.outpoint).Nodup)
    (hi : input.outpoint ∉ v.utxos ∨ input.outpoint ∈ pre.map TxInput.outpoint) :
    v.validateTx tx = .error (if input.outpoint ∈ v.utxos then
      .AlreadySpent ⟨input.prevTxHash, input.index⟩ else .NotFound ⟨input.prevTxHash, input.index⟩) := by
  rw [validateTx, hdec, validateTx_go_append v [] _ (fun i hi => ⟨hpre i hi, List.not_mem_nil _⟩) hnd,
    validateTx_go_cons, List.append_nil]
  by_cases hv : input.outpoint ∈ v.utxos
  · rw [if_neg (not_not.mpr hv), if_pos (List.mem_reverse.mpr (hi.resolve_left (not_not.mpr hv))),
      if_pos hv]
  · rw [if_pos hv, if_neg hv]

/-- `validate_tx`, for every view and every transaction, coinbase transactions
included: it succeeds exactly when the inputs' outpoints are all in the view and
pairwise distinct; otherwise it fails at the first input whose outpoint is absent,
with `NotFound`, or repeats an earlier input's, with `AlreadySpent`. -/
theorem validateTx_spec (tx : Transaction) :
    (v.validateTx tx = .ok () ↔
      (∀ input ∈ tx.inputs, input.outpoint ∈ v.utxos) ∧ (tx.inputs.map TxInput.outpoint).Nodup) ∧
    ∀ e, v.validateTx tx = .error e ↔
      ∃ pre input post, tx.inputs = pre ++ input :: post ∧
        (∀ i ∈ pre, i.outpoint ∈ v.utxos) ∧ (pre.map TxInput.outpoint).Nodup ∧
        (input.outpoint ∉ v.utxos ∧ e = .NotFound ⟨input.prevTxHash, input.index⟩ ∨
          input.outpoint ∈ v.utxos ∧ input.outpoint ∈ pre.map TxInput.outpoint ∧
            e = .AlreadySpent ⟨input.prevTxHash, input.index⟩) := by
  refine ⟨⟨fun h => ?_, fun ⟨hin, hnd⟩ => validateTx_of_good v hin hnd⟩, fun e => ⟨fun h => ?_, ?_⟩⟩
  · rcases inputs_good_or_first_failure v tx.inputs with hok | ⟨pre, input, post, hdec, hpre, hnd, hi⟩
    · exact hok
    · rw [validateTx_of_first_failure v hdec hpre hnd hi] at h
      cases h
  · rcases inputs_good_or_first_failure v tx.inputs with ⟨hin, hnd⟩ | ⟨pre, input, post, hdec, hpre, hnd, hi⟩
    · rw [validateTx_of_good v hin hnd] at h
      cases h
    · rw [validateTx_of_first_failure v hdec hpre hnd hi, Except.error.injEq] at h
      refine ⟨pre, input, post, hdec, hpre, hnd, ?_⟩
      by_cases hv : input.outpoint ∈ v.utxos
      · rw [if_pos hv] at h
        exact .inr ⟨hv, hi.resolve_left (not_not.mpr hv), h.symm⟩
      · rw [if_neg hv] at h
        exact .inl ⟨hv, h.symm⟩
  · rintro ⟨pre, input, post, hdec, hpre, hnd, ⟨hv, rfl⟩ | ⟨hv, hmem, rfl⟩⟩
    · rw [validateTx_of_first_failure v hdec hpre hnd (.inl hv), if_neg hv]
    · rw [validateTx_of_first_failure v hdec hpre hnd (.inr hmem), if_pos hv]

/-- A coinbase transaction, one input spending the all-zero outpoint, against the view
of an empty collection, as in the source's test of an invalid transaction: nothing
exempts it, and `validate_tx` returns `NotFound`. -/
theorem validateTx_coinbase_not_found :
    (Transaction.mk 1 [⟨Hash.default, 0, [], 0⟩] [] 0).isCoinbase = true ∧
    (newFromCollection UtxoCollection.new).validateTx (Transaction.mk 1 [⟨Hash.default, 0, [], 0⟩] [] 0) =
      .error (.NotFound ⟨Hash.default, 0⟩) := by
  decide

end UtxoView

/-- The view `UtxoView::new_from_collection` copies when its read lock comes after
the first `i` write-locked steps of `c.apply_diff(diff)`. -/
def snapshotDuring (c : UtxoCollection) (diff : UtxoDiff) (i : Nat) : UtxoView :=
  UtxoView.newFromCollection (c.runSteps (diff.steps.take i)).2

/-- A view taken during a successful `apply_diff` sees the old map with a prefix of
`diff.added` inserted, or with all of it inserted and a prefix of `diff.removed`
erased: the map before the call for `i = 0`, the map after it once every step has
run, and an intermediate map in between. -/
theorem snapshotDuring_eq (c : UtxoCollection) (diff : UtxoDiff)
    (h : (c.applyDiff diff).1 = .ok ()) (i : Nat) :
    (snapshotDuring c diff i).utxos =
      if i ≤ diff.added.length then insertAll c.utxos (diff.added.take i)
      else eraseAll (insertAll c.utxos diff.added) (diff.removed.take (i - diff.added.length)) := by
  have hf := UtxoCollection.fresh_of_applyDiff_ok h
  have hlen : (diff.added.map fun e => UtxoStep.insert e.1 e.2).length = diff.added.length := by
    simp
  split
  · next hi =>
    have hpre : Fresh c.utxos (diff.added.take i) := by
      rw [← List.take_append_drop i diff.added, fresh_append] at hf
      exact hf.1
    rw [snapshotDuring, UtxoDiff.steps, List.take_append_of_le_length (by omega), ← List.map_take,
      UtxoCollection.runSteps_inserts_of_fresh hpre]
    rfl
  · next hi =>
    obtain ⟨c', hrun, hc'⟩ :=
      UtxoCollection.runSteps_removes (c.addEntries diff.added) (diff.removed.take (i - diff.added.length))
    rw [snapshotDuring, UtxoDiff.steps, List.take_append_eq_append_take,
      List.take_of_length_le (by omega), hlen, UtxoCollection.runSteps_append,
      UtxoCollection.runSteps_inserts_of_fresh hf, ← List.map_take]
    simp only [hrun]
    exact hc'

theorem snapshotDuring_eq_one_of_two :
    (UtxoCollection.new.applyDiff
        ⟨[(⟨Hash.default, 0⟩, ⟨0, []⟩), (⟨Hash.default, 1⟩, ⟨0, []⟩)], []⟩).1 = .ok () ∧
    (snapshotDuring UtxoCollection.new
        ⟨[(⟨Hash.default, 0⟩, ⟨0, []⟩), (⟨Hash.default, 1⟩, ⟨0, []⟩)], []⟩ 1).utxos =
      insertAll ∅ [(⟨Hash.default, 0⟩, ⟨0, []⟩)] :=
  ⟨by decide, snapshotDuring_eq _ _ (by decide) 1⟩

/-- After a successful `apply_diff` on the collection, a view taken before the call
and given the same diff holds the map the collection holds after it: every insert of
a successful call was of an absent outpoint, so the view's overwriting inserts write
the same entries, and both remove loops erase the same outpoints. -/
theorem applyDiff_newFromCollection (c : UtxoCollection) (diff : UtxoDiff)
    (h : (c.applyDiff diff).1 = .ok ()) :
    ((UtxoView.newFromCollection c).applyDiff diff).utxos = (c.applyDiff diff).2.utxos := by
  obtain ⟨c', hc, hc'⟩ := UtxoCollection.applyDiff_of_fresh (UtxoCollection.fresh_of_applyDiff_ok h)
  rw [hc, hc']
  rfl

theorem applyDiff_newFromCollection_spend :
    ((UtxoCollection.new.insert ⟨Hash.default, 0⟩ ⟨5, []⟩).2.applyDiff
        ⟨[(⟨Hash.default, 1⟩, ⟨5, []⟩)], [⟨Hash.default, 0⟩]⟩).1 = .ok () ∧
    ((UtxoView.newFromCollection (UtxoCollection.new.insert ⟨Hash.default, 0⟩ ⟨5, []⟩).2).applyDiff
        ⟨[(⟨Hash.default, 1⟩, ⟨5, []⟩)], [⟨Hash.default, 0⟩]⟩).utxos =
      ((UtxoCollection.new.insert ⟨Hash.default, 0⟩ ⟨5, []⟩).2.applyDiff
        ⟨[(⟨Hash.default, 1⟩, ⟨5, []⟩)], [⟨Hash.default, 0⟩]⟩).2.utxos :=
  ⟨by decide, applyDiff_newFromCollection _ _ (by decide)⟩

/-- A view taken between the two inserts of a two-entry diff sees neither the map
before the call nor the map after it. -/
theorem snapshotDuring_sees_half :
    snapshotDuring UtxoCollection.new
        ⟨[(⟨Hash.default, 0⟩, ⟨0, []⟩), (⟨Hash.default, 1⟩, ⟨0, []⟩)], []⟩ 1 ≠
      UtxoView.newFromCollection UtxoCollection.new ∧
    snapshotDuring UtxoCollection.new
        ⟨[(⟨Hash.default, 0⟩, ⟨0, []⟩), (⟨Hash.default, 1⟩, ⟨0, []⟩)], []⟩ 1 ≠
      UtxoView.newFromCollection (UtxoCollection.new.applyDiff
        ⟨[(⟨Hash.default, 0⟩, ⟨0, []⟩), (⟨Hash.default, 1⟩, ⟨0, []⟩)], []⟩).2 := by
  decide

end Jiopad
