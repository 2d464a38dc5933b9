import Jiopad.Consensus.Utxo.Commitment
import Jiopad.Sha256

/-!
# The diffs of a transaction, and reversing a diff

`UtxoDiff::from_transaction` removes each input's outpoint and adds `(tx.hash(), index as
u32)` per output; below `2 ^ 32` outputs those are distinct and `apply_diff` succeeds on a
collection holding none of them.  `UtxoDiff::reverse` removes the added outpoints and
restores nothing, so applying a diff and its reverse erases the diff's removed outpoints.
-/

namespace Jiopad

namespace UtxoDiff

/-- `UtxoDiff::reverse`: a remove of each added outpoint, in order, and no add. -/
def reverse (diff : UtxoDiff) : UtxoDiff := ⟨[], diff.added.map Prod.fst⟩

/-- `UtxoDiff::from_transaction`: a remove of each input's outpoint, then an add of
`(tx.hash(), index as u32)` and the output for each output. -/
def fromTransaction (sha256 : List UInt8 → List UInt8) (tx : Transaction) : UtxoDiff :=
  let txHash := tx.hash sha256
  ⟨tx.outputs.enum.map fun e => (⟨txHash, UInt32.ofNat e.1⟩, e.2), tx.inputs.map TxInput.outpoint⟩

/-! ## The outpoints of a transaction's outputs -/

theorem eq_mk_of_txHash {o : OutPoint} {h : Hash} (hh : o.txHash = h) :
    o = ⟨h, UInt32.ofNat o.index.toNat⟩ := by
  obtain ⟨h', i⟩ := o
  subst hh
  rw [UInt32.ofNat_toNat]

section FromTransaction

variable (sha256 : List UInt8 → List UInt8) (tx : Transaction)

theorem map_fst_added_fromTransaction :
    (fromTransaction sha256 tx).added.map Prod.fst =
      (List.range tx.outputs.length).map fun i => (⟨tx.hash sha256, UInt32.ofNat i⟩ : OutPoint) := by
  rw [fromTransaction, List.map_map, ← List.enum_map_fst, List.map_map]
  rfl

variable {sha256 tx}

theorem mem_map_fst_added_fromTransaction (hlen : tx.outputs.length < 2 ^ 32) (o : OutPoint) :
    o ∈ (fromTransaction sha256 tx).added.map Prod.fst ↔
      o.txHash = tx.hash sha256 ∧ o.index.toNat < tx.outputs.length := by
  rw [map_fst_added_fromTransaction, List.mem_map]
  constructor
  · rintro ⟨i, hi, rfl⟩
    have hi := List.mem_range.mp hi
    exact ⟨rfl, by rw [UInt32.toNat_ofNat_of_lt (Nat.lt_trans hi hlen)]; exact hi⟩
  · rintro ⟨hh, hi⟩
    exact ⟨o.index.toNat, List.mem_range.mpr hi, (eq_mk_of_txHash hh).symm⟩

theorem nodup_added_fromTransaction (hlen : tx.outputs.length < 2 ^ 32) :
    ((fromTransaction sha256 tx).added.map Prod.fst).Nodup := by
  rw [map_fst_added_fromTransaction]
  refine (List.nodup_range _).map_on fun i hi j hj e => ?_
  have e := congrArg (fun o : OutPoint => o.index.toNat) e
  simp only [UInt32.toNat_ofNat_of_lt (Nat.lt_trans (List.mem_range.mp hi) hlen),
    UInt32.toNat_ofNat_of_lt (Nat.lt_trans (List.mem_range.mp hj) hlen)] at e
  exact e

theorem lookup_insertAll_fromTransaction (hlen : tx.outputs.length < 2 ^ 32) (m : UtxoMap)
    (o : OutPoint) :
    (insertAll m (fromTransaction sha256 tx).added).lookup o =
      if o.txHash = tx.hash sha256 ∧ o.index.toNat < tx.outputs.length then
        tx.outputs[o.index.toNat]?
      else m.lookup o := by
  split
  · next h =>
    have hmem : (o, tx.outputs[o.index.toNat]) ∈ (fromTransaction sha256 tx).added := by
      refine List.mem_map.mpr ⟨(o.index.toNat, tx.outputs[o.index.toNat]),
        List.mem_enum_iff_getElem?.mpr (List.getElem?_eq_getElem h.2),
        Prod.ext (eq_mk_of_txHash h.1).symm rfl⟩
    rw [lookup_insertAll_of_mem (nodup_added_fromTransaction hlen) hmem,
      List.getElem?_eq_getElem h.2]
  · next h => exact lookup_insertAll_of_not_mem fun hm => h ((mem_map_fst_added_fromTransaction hlen o).mp hm)

end FromTransaction

end UtxoDiff

namespace UtxoCollection

open UtxoDiff

theorem lookup_applyDiff_fromTransaction {sha256 : List UInt8 → List UInt8} {tx : Transaction}
    (hlen : tx.outputs.length < 2 ^ 32) (c : UtxoCollection)
    (hfresh : ∀ i < tx.outputs.length, (⟨tx.hash sha256, UInt32.ofNat i⟩ : OutPoint) ∉ c.utxos) :
    ∃ c', c.applyDiff (fromTransaction sha256 tx) = (.ok (), c') ∧
      ∀ o, c'.utxos.lookup o =
        if o ∈ tx.inputs.map TxInput.outpoint then none
        else if o.txHash = tx.hash sha256 ∧ o.index.toNat < tx.outputs.length then
          tx.outputs[o.index.toNat]?
        else c.utxos.lookup o := by
  have hf : Fresh c.utxos (fromTransaction sha256 tx).added := by
    refine fresh_iff.mpr ⟨nodup_added_fromTransaction hlen, fun e he => ?_⟩
    obtain ⟨hh, hi⟩ := (mem_map_fst_added_fromTransaction hlen e.1).mp (List.mem_map_of_mem _ he)
    exact eq_mk_of_txHash hh ▸ hfresh _ hi
  obtain ⟨c', hc, hc'⟩ := applyDiff_of_fresh hf
  exact ⟨c', hc, fun o => by rw [hc', lookup_eraseAll, lookup_insertAll_fromTransaction hlen]; rfl⟩

/-- `apply_diff(UtxoDiff::from_transaction(tx))`, for a transaction of fewer than
`2 ^ 32` outputs: on a collection holding none of the outpoints of its outputs, as
`lookup_applyDiff_fromTransaction` says; and from an empty collection, when no input
spends an output of the transaction itself, removing one of its outputs leaves one
entry fewer than it has outputs. -/
theorem applyDiff_fromTransaction (sha256 : List UInt8 → List UInt8) (tx : Transaction)
    (hlen : tx.outputs.length < 2 ^ 32) :
    (∀ c : UtxoCollection,
      (∀ i < tx.outputs.length, (⟨tx.hash sha256, UInt32.ofNat i⟩ : OutPoint) ∉ c.utxos) →
      ∃ c', c.applyDiff (fromTransaction sha256 tx) = (.ok (), c') ∧
        ∀ o, c'.utxos.lookup o =
          if o ∈ tx.inputs.map TxInput.outpoint then none
          else if o.txHash = tx.hash sha256 ∧ o.index.toNat < tx.outputs.length then
            tx.outputs[o.index.toNat]?
          else c.utxos.lookup o) ∧
    ((∀ input ∈ tx.inputs, input.prevTxHash = tx.hash sha256 → tx.outputs.length ≤ input.index.toNat) →
      ∃ c', new.applyDiff (fromTransaction sha256 tx) = (.ok (), c') ∧
        ∀ i < tx.outputs.length,
          (c'.remove ⟨tx.hash sha256, UInt32.ofNat i⟩).2.len = tx.outputs.length - 1) := by
  refine ⟨lookup_applyDiff_fromTransaction hlen, fun hin => ?_⟩
  obtain ⟨c', hc, hlook⟩ :=
    @lookup_applyDiff_fromTransaction sha256 tx hlen new fun _ _ => Finmap.not_mem_empty
  have hmem := @mem_map_fst_added_fromTransaction sha256 tx hlen
  have hkeys : c'.utxos.keys = ((fromTransaction sha256 tx).added.map Prod.fst).toFinset := by
    ext o
    rw [Finmap.mem_keys, List.mem_toFinset, hmem, ← Finmap.lookup_isSome, hlook]
    split
    · next hr =>
      obtain ⟨input, hinput, rfl⟩ := List.mem_map.mp hr
      simp only [Option.isSome_none, Bool.false_eq_true, false_iff, not_and, Nat.not_lt]
      exact hin input hinput
    · split
      · next h => simp [List.getElem?_eq_getElem h.2, h]
      · next h => simp [h, new]
  refine ⟨c', hc, fun i hi => ?_⟩
  have hi' : (⟨tx.hash sha256, UInt32.ofNat i⟩ : OutPoint) ∈ c'.utxos.keys := by
    rw [hkeys, List.mem_toFinset, hmem]
    exact ⟨rfl, by rw [UInt32.toNat_ofNat_of_lt (Nat.lt_trans hi hlen)]; exact hi⟩
  rw [len, (remove_utxos c' _).2, Finmap.keys_erase, Finset.card_erase_of_mem hi', hkeys,
    List.toFinset_card_of_nodup (nodup_added_fromTransaction hlen), map_fst_added_fromTransaction,
    List.length_map, List.length_range]

theorem applyDiff_fromTransaction_two_outputs :
    (Transaction.mk 1 [⟨Hash.default, 0, [], 0⟩] [⟨5, []⟩, ⟨7, []⟩] 0).outputs.length < 2 ^ 32 ∧
    ∃ c', new.applyDiff (fromTransaction Sha256.digest (Transaction.mk 1 [⟨Hash.default, 0, [], 0⟩]
        [⟨5, []⟩, ⟨7, []⟩] 0)) = (.ok (), c') ∧
      ∀ o, c'.utxos.lookup o =
        if o ∈ [⟨Hash.default, 0⟩] then none
        else if o.txHash =
            (Transaction.mk 1 [⟨Hash.default, 0, [], 0⟩] [⟨5, []⟩, ⟨7, []⟩] 0).hash Sha256.digest ∧
            o.index.toNat < 2 then [(⟨5, []⟩ : TxOutput), ⟨7, []⟩][o.index.toNat]?
        else none :=
  ⟨by decide, (applyDiff_fromTransaction Sha256.digest _ (by decide)).1 new
    fun _ _ => Finmap.not_mem_empty⟩

/-! ## Applying a diff and then its reverse -/

theorem ext_of_utxos_muhash {c c' : UtxoCollection} (hu : c.utxos = c'.utxos)
    (hm : c.muhash = c'.muhash) : c = c' := by
  cases c; cases c'; cases hu; cases hm; rfl

theorem applyDiff_reverse_of_ok {c : UtxoCollection} {diff : UtxoDiff}
    (h : (c.applyDiff diff).1 = .ok ()) :
    ∃ c₂, (c.applyDiff diff).2.applyDiff diff.reverse = (.ok (), c₂) ∧
      c₂.utxos = eraseAll c.utxos diff.removed := by
  have hf := fresh_of_applyDiff_ok h
  obtain ⟨c₁, hc₁, hu₁⟩ := applyDiff_of_fresh hf
  obtain ⟨c₂, hc₂, hu₂⟩ := applyDiff_of_fresh (show Fresh c₁.utxos diff.reverse.added from trivial)
  refine ⟨c₂, by rw [hc₁]; exact hc₂, Finmap.ext_lookup fun o => ?_⟩
  rw [hu₂, reverse, insertAll_nil, lookup_eraseAll, hu₁, lookup_eraseAll, lookup_eraseAll]
  by_cases ha : o ∈ diff.added.map Prod.fst
  · have hc : o ∉ c.utxos := by
      obtain ⟨e, he, rfl⟩ := List.mem_map.mp ha
      exact (fresh_iff.mp hf).2 e he
    rw [if_pos ha, Finmap.lookup_eq_none.mpr hc, ite_self]
  · rw [if_neg ha, lookup_insertAll_of_not_mem ha]

/-- After a successful `apply_diff`, applying the reverse diff succeeds and leaves the
old map with the diff's removed outpoints erased: the added entries are gone again,
and a removed entry the collection held is not restored.  The MuHash commitment is
kept, so when the diff removed nothing the collection held, the collection is back
to what it was, map and MuHash. -/
theorem applyDiff_reverse {c : UtxoCollection} {diff : UtxoDiff} (h : (c.applyDiff diff).1 = .ok ()) :
    ((c.applyDiff diff).2.applyDiff diff.reverse).1 = .ok () ∧
    ((c.applyDiff diff).2.applyDiff diff.reverse).2.utxos = eraseAll c.utxos diff.removed ∧
    (MuHashCommits c → MuHashCommits ((c.applyDiff diff).2.applyDiff diff.reverse).2 ∧
      ((∀ o ∈ diff.removed, o ∉ c.utxos) → ((c.applyDiff diff).2.applyDiff diff.reverse).2 = c)) := by
  obtain ⟨c₂, hc₂, hu⟩ := applyDiff_reverse_of_ok h
  rw [hc₂]
  refine ⟨rfl, hu, fun hcommit => ?_⟩
  have hcommit₂ : MuHashCommits c₂ := by
    simpa only [call, hc₂] using
      commits_call (commits_call hcommit (.applyDiff diff)) (.applyDiff diff.reverse)
  refine ⟨hcommit₂, fun habsent => ?_⟩
  have hsame : c₂.utxos = c.utxos := hu.trans (eraseAll_of_forall_not_mem habsent)
  exact ext_of_utxos_muhash hsame (hcommit₂.muhash_eq hcommit (by rw [hsame]))

theorem applyDiff_reverse_spend :
    ((UtxoCollection.new.insert ⟨Hash.default, 0⟩ ⟨5, []⟩).2.applyDiff
        ⟨[(⟨Hash.default, 1⟩, ⟨5, []⟩)], [⟨Hash.default, 0⟩]⟩).1 = .ok () ∧
    (((UtxoCollection.new.insert ⟨Hash.default, 0⟩ ⟨5, []⟩).2.applyDiff
        ⟨[(⟨Hash.default, 1⟩, ⟨5, []⟩)], [⟨Hash.default, 0⟩]⟩).2.applyDiff
          (UtxoDiff.reverse ⟨[(⟨Hash.default, 1⟩, ⟨5, []⟩)], [⟨Hash.default, 0⟩]⟩)).2.utxos =
      eraseAll (UtxoCollection.new.insert ⟨Hash.default, 0⟩ ⟨5, []⟩).2.utxos [⟨Hash.default, 0⟩] :=
  ⟨by decide, (applyDiff_reverse (by decide)).2.1⟩

/-- Spending an outpoint of hash `1` and reversing the diff: the outpoint is not back,
and neither is the MuHash. -/
theorem applyDiff_reverse_not_restored :
    ((UtxoCollection.new.insert ⟨Hash.fromSlice [1], 0⟩ ⟨5, []⟩).2.applyDiff
        ⟨[], [⟨Hash.fromSlice [1], 0⟩]⟩).1 = .ok () ∧
    (((UtxoCollection.new.insert ⟨Hash.fromSlice [1], 0⟩ ⟨5, []⟩).2.applyDiff
        ⟨[], [⟨Hash.fromSlice [1], 0⟩]⟩).2.applyDiff
          (UtxoDiff.reverse ⟨[], [⟨Hash.fromSlice [1], 0⟩]⟩)).1 = .ok () ∧
    (((UtxoCollection.new.insert ⟨Hash.fromSlice [1], 0⟩ ⟨5, []⟩).2.applyDiff
        ⟨[], [⟨Hash.fromSlice [1], 0⟩]⟩).2.applyDiff
          (UtxoDiff.reverse ⟨[], [⟨Hash.fromSlice [1], 0⟩]⟩)).2.utxos ≠
      (UtxoCollection.new.insert ⟨Hash.fromSlice [1], 0⟩ ⟨5, []⟩).2.utxos ∧
    (((UtxoCollection.new.insert ⟨Hash.fromSlice [1], 0⟩ ⟨5, []⟩).2.applyDiff
        ⟨[], [⟨Hash.fromSlice [1], 0⟩]⟩).2.applyDiff
          (UtxoDiff.reverse ⟨[], [⟨Hash.fromSlice [1], 0⟩]⟩)).2.muhash.finalize ≠
      (UtxoCollection.new.insert ⟨Hash.fromSlice [1], 0⟩ ⟨5, []⟩).2.muhash.finalize := by
  decide

end UtxoCollection

end Jiopad
