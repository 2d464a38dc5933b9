import Jiopad.Consensus.Utxo.Diff
import Jiopad.Consensus.Utxo.View
import Jiopad.Consensus.Utxo.Inquirer

/-!
# Applying a validated transaction

When `validate_tx` on a view of the collection accepts a transaction and the collection
holds none of its outputs' outpoints, `apply_diff` of its diff succeeds: one entry more
per output and one fewer per input, every script's exact balance up by what the outputs
pay and down by what the spent outputs paid.  Since the removes come last, a replay or
any other spend of those outpoints is then rejected.
-/

namespace Jiopad

def creditSum (outputs : List TxOutput) (scriptPubkey : List UInt8) : Nat :=
  outputs.foldr (fun output acc => output.credit scriptPubkey + acc) 0

@[simp] theorem creditSum_cons (output : TxOutput) (outputs : List TxOutput) (scriptPubkey : List UInt8) :
    creditSum (output :: outputs) scriptPubkey = output.credit scriptPubkey + creditSum outputs scriptPubkey :=
  rfl

namespace UtxoView

theorem good_of_validateTx_ok (v : UtxoView) {tx : Transaction} (h : v.validateTx tx = .ok ()) :
    (∀ input ∈ tx.inputs, input.outpoint ∈ v.utxos) ∧ (tx.inputs.map TxInput.outpoint).Nodup := by
  rcases inputs_good_or_first_failure v tx.inputs with hgood | ⟨pre, input, post, hdec, hpre, hnd, hi⟩
  · exact hgood
  · rw [validateTx_of_first_failure v hdec hpre hnd hi] at h
    cases h

end UtxoView

namespace UtxoCollection

theorem len_insert_of_not_mem {c : UtxoCollection} {o : OutPoint} (h : o ∉ c.utxos) (out : TxOutput) :
    (c.insert o out).2.len = c.len + 1 := by
  simp only [insert_of_not_mem h, len, Finmap.keys, Finset.card_mk, Multiset.keys,
    Finmap.insert_entries_of_neg h, Multiset.map_cons, Multiset.card_cons]

theorem len_remove_of_mem {c : UtxoCollection} {o : OutPoint} (h : o ∈ c.utxos) :
    (c.remove o).2.len + 1 = c.len := by
  rw [len, len, (remove_utxos c o).2, Finmap.keys_erase,
    Finset.card_erase_add_one (Finmap.mem_keys.mpr h)]

theorem addEntries_len_balance {c : UtxoCollection} {entries : List (OutPoint × TxOutput)}
    (h : Fresh c.utxos entries) :
    (c.addEntries entries).len = c.len + entries.length ∧
      ∀ s, (c.addEntries entries).balance s = c.balance s + creditSum (entries.map Prod.snd) s := by
  induction entries generalizing c with
  | nil => exact ⟨rfl, fun _ => rfl⟩
  | cons e entries ih =>
    have hstep : c.addEntries (e :: entries) = (c.insert e.1 e.2).2.addEntries entries := by
      rw [insert_of_not_mem h.1]
      rfl
    obtain ⟨hlen, hbal⟩ := ih (show Fresh (c.insert e.1 e.2).2.utxos entries by
      rw [insert_of_not_mem h.1]; exact h.2)
    refine ⟨by rw [hstep, hlen, len_insert_of_not_mem h.1, List.length_cons]; omega, fun s => ?_⟩
    rw [hstep, hbal, balance_insert, if_neg h.1, List.map_cons, creditSum_cons, Nat.add_assoc]

theorem len_remove_of_not_mem {c : UtxoCollection} {o : OutPoint} (h : o ∉ c.utxos) :
    (c.remove o).2.len = c.len := by
  rw [len, len, (remove_utxos c o).2, Finmap.keys_erase,
    Finset.erase_eq_of_not_mem (fun hk => h (Finmap.mem_keys.mp hk))]

theorem runSteps_removes_len_balance {c : UtxoCollection} {outpoints : List OutPoint}
    (hnd : outpoints.Nodup) :
    ∃ c', c.runSteps (outpoints.map .remove) = (.ok (), c') ∧
      c'.len + (outpoints.filterMap c.get).length = c.len ∧
      ∀ s, c'.balance s + creditSum (outpoints.filterMap c.get) s = c.balance s := by
  induction outpoints generalizing c with
  | nil => exact ⟨c, rfl, rfl, fun _ => rfl⟩
  | cons o outpoints ih =>
    rw [List.nodup_cons] at hnd
    have hget : ∀ o' ∈ outpoints, (c.remove o).2.get o' = c.get o' := fun o' ho' => by
      rw [get, get, (remove_utxos c o).2, Finmap.lookup_erase_ne (ne_of_mem_of_not_mem ho' hnd.1)]
    obtain ⟨c', hrun, hlen, hbal⟩ := ih (c := (c.remove o).2) hnd.2
    rw [List.filterMap_congr hget] at hlen hbal
    refine ⟨c', by simp only [List.map_cons, runSteps, step, (remove_utxos c o).1, Except.map]; exact hrun, ?_⟩
    have hremove := balance_remove c o
    cases hout : c.get o with
    | none =>
      simp only [hout, Option.map_none', Option.getD_none, Nat.add_zero] at hremove
      refine ⟨?_, fun s => ?_⟩
      · rw [List.filterMap_cons, hout, hlen, len_remove_of_not_mem (Finmap.lookup_eq_none.mp hout)]
      · rw [List.filterMap_cons, hout, hbal, hremove]
    | some out =>
      simp only [hout, Option.map_some', Option.getD_some] at hremove
      have := len_remove_of_mem (Finmap.mem_of_lookup_eq_some hout)
      refine ⟨?_, fun s => ?_⟩
      · rw [List.filterMap_cons, hout, List.length_cons]
        omega
      · rw [List.filterMap_cons, hout, creditSum_cons, ← hremove, ← hbal]
        omega

open UtxoDiff in
theorem fresh_added_fromTransaction {sha256 : List UInt8 → List UInt8} {tx : Transaction}
    (hlen : tx.outputs.length < 2 ^ 32) {c : UtxoCollection}
    (hfresh : ∀ i < tx.outputs.length, (⟨tx.hash sha256, UInt32.ofNat i⟩ : OutPoint) ∉ c.utxos) :
    Fresh c.utxos (fromTransaction sha256 tx).added := by
  refine fresh_iff.mpr ⟨nodup_added_fromTransaction hlen, fun e he => ?_⟩
  obtain ⟨hh, hi⟩ := (mem_map_fst_added_fromTransaction hlen e.1).mp (List.mem_map_of_mem _ he)
  exact eq_mk_of_txHash hh ▸ hfresh _ hi

theorem map_snd_added_fromTransaction (sha256 : List UInt8 → List UInt8) (tx : Transaction) :
    (UtxoDiff.fromTransaction sha256 tx).added.map Prod.snd = tx.outputs := by
  rw [UtxoDiff.fromTransaction, List.map_map]
  exact List.enum_map_snd tx.outputs

theorem applyDiff_fromTransaction_accounting (sha256 : List UInt8 → List UInt8)
    (c : UtxoCollection) (tx : Transaction) (hlen : tx.outputs.length < 2 ^ 32)
    (hfresh : ∀ i < tx.outputs.length, (⟨tx.hash sha256, UInt32.ofNat i⟩ : OutPoint) ∉ c.utxos)
    (hnd : (tx.inputs.map TxInput.outpoint).Nodup)
    (hown : ∀ input ∈ tx.inputs, input.prevTxHash = tx.hash sha256 →
      tx.outputs.length ≤ input.index.toNat) :
    ∃ c', c.applyDiff (UtxoDiff.fromTransaction sha256 tx) = (.ok (), c') ∧
      c'.len + (tx.inputs.filterMap fun input => c.get input.outpoint).length =
        c.len + tx.outputs.length ∧
      ∀ s, c'.balance s + creditSum (tx.inputs.filterMap fun input => c.get input.outpoint) s =
        c.balance s + creditSum tx.outputs s := by
  have hf := fresh_added_fromTransaction hlen hfresh
  set c₁ := c.addEntries (UtxoDiff.fromTransaction sha256 tx).added
  obtain ⟨hlen₁, hbal₁⟩ := addEntries_len_balance hf
  -- the inserts neither hit nor change what an input spends
  have hspent : (tx.inputs.map TxInput.outpoint).filterMap c₁.get =
      tx.inputs.filterMap fun input => c.get input.outpoint := by
    rw [List.filterMap_map]
    refine List.filterMap_congr fun input hinput => lookup_insertAll_of_not_mem fun hadd => ?_
    obtain ⟨hh, hi⟩ := (UtxoDiff.mem_map_fst_added_fromTransaction hlen _).mp hadd
    exact absurd hi (Nat.not_lt.mpr (hown input hinput hh))
  obtain ⟨c', hrun, hlen', hbal'⟩ := runSteps_removes_len_balance (c := c₁) hnd
  rw [hspent] at hlen' hbal'
  refine ⟨c', by rw [applyDiff, runSteps_inserts_of_fresh hf]; exact hrun, ?_, fun s => ?_⟩
  · rw [hlen', hlen₁, ← map_snd_added_fromTransaction sha256, List.length_map]
  · rw [hbal', hbal₁, map_snd_added_fromTransaction]

theorem length_filterMap_get_of_mem {c : UtxoCollection} {inputs : List TxInput}
    (h : ∀ input ∈ inputs, input.outpoint ∈ c.utxos) :
    (inputs.filterMap fun input => c.get input.outpoint).length = inputs.length := by
  induction inputs with
  | nil => rfl
  | cons input inputs ih =>
    obtain ⟨out, hout⟩ := Option.isSome_iff_exists.mp
      (Finmap.lookup_isSome.mpr (h input (List.mem_cons_self _ _)))
    rw [List.filterMap_cons, show c.get input.outpoint = some out from hout, List.length_cons,
      List.length_cons, ih fun i hi => h i (List.mem_cons_of_mem _ hi)]

/-- Applying a transaction that `validate_tx` accepts on a view of the collection,
to a collection holding none of its outputs' outpoints, succeeds; the collection
gains one entry per output and loses one per input, and every balance gains what the
outputs pay to its script and loses what the spent outputs paid to it. -/
theorem applyDiff_fromTransaction_of_validateTx (sha256 : List UInt8 → List UInt8)
    (c : UtxoCollection) (tx : Transaction) (hlen : tx.outputs.length < 2 ^ 32)
    (hvalid : (UtxoView.newFromCollection c).validateTx tx = .ok ())
    (hfresh : ∀ i < tx.outputs.length, (⟨tx.hash sha256, UInt32.ofNat i⟩ : OutPoint) ∉ c.utxos) :
    ∃ c', c.applyDiff (UtxoDiff.fromTransaction sha256 tx) = (.ok (), c') ∧
      c'.len + tx.inputs.length = c.len + tx.outputs.length ∧
      ∀ s, c'.balance s + creditSum (tx.inputs.filterMap fun input => c.get input.outpoint) s =
        c.balance s + creditSum tx.outputs s := by
  obtain ⟨hin, hnd⟩ := (UtxoView.newFromCollection c).good_of_validateTx_ok hvalid
  -- an input spends an entry of `c`, so not an output of the transaction itself
  have hown : ∀ input ∈ tx.inputs, input.prevTxHash = tx.hash sha256 →
      tx.outputs.length ≤ input.index.toNat := fun input hinput hh => Nat.not_lt.mp fun hi =>
    hfresh _ hi (UtxoDiff.eq_mk_of_txHash (o := input.outpoint) hh ▸ hin input hinput)
  obtain ⟨c', happly, hlen', hbal⟩ :=
    applyDiff_fromTransaction_accounting sha256 c tx hlen hfresh hnd hown
  exact ⟨c', happly, length_filterMap_get_of_mem hin ▸ hlen', hbal⟩

theorem applyDiff_fromTransaction_of_validateTx_split :
    [TxOutput.mk 3 [1], TxOutput.mk 2 [2]].length < 2 ^ 32 ∧
    (UtxoView.newFromCollection (new.insert ⟨Hash.default, 0⟩ ⟨5, [1]⟩).2).validateTx
      ⟨1, [⟨Hash.default, 0, [], 0⟩], [⟨3, [1]⟩, ⟨2, [2]⟩], 0⟩ = .ok () ∧
    (∀ i < 2, (⟨Transaction.hash (fun _ => List.replicate 32 7)
      ⟨1, [⟨Hash.default, 0, [], 0⟩], [⟨3, [1]⟩, ⟨2, [2]⟩], 0⟩, UInt32.ofNat i⟩ : OutPoint) ∉
        (new.insert ⟨Hash.default, 0⟩ ⟨5, [1]⟩).2.utxos) ∧
    ∃ c', (new.insert ⟨Hash.default, 0⟩ ⟨5, [1]⟩).2.applyDiff
        (UtxoDiff.fromTransaction (fun _ => List.replicate 32 7)
          ⟨1, [⟨Hash.default, 0, [], 0⟩], [⟨3, [1]⟩, ⟨2, [2]⟩], 0⟩) = (.ok (), c') ∧
      c'.len + 1 = (new.insert ⟨Hash.default, 0⟩ ⟨5, [1]⟩).2.len + 2 ∧
      ∀ s, c'.balance s + creditSum ([⟨Hash.default, 0, [], 0⟩].filterMap fun input : TxInput =>
          (new.insert ⟨Hash.default, 0⟩ ⟨5, [1]⟩).2.get input.outpoint) s =
        (new.insert ⟨Hash.default, 0⟩ ⟨5, [1]⟩).2.balance s + creditSum [⟨3, [1]⟩, ⟨2, [2]⟩] s :=
  have hlen : [TxOutput.mk 3 [1], TxOutput.mk 2 [2]].length < 2 ^ 32 := by decide
  have hvalid : (UtxoView.newFromCollection (new.insert ⟨Hash.default, 0⟩ ⟨5, [1]⟩).2).validateTx
      ⟨1, [⟨Hash.default, 0, [], 0⟩], [⟨3, [1]⟩, ⟨2, [2]⟩], 0⟩ = .ok () := by decide
  have hfresh : ∀ i < 2, (⟨Transaction.hash (fun _ => List.replicate 32 7)
      ⟨1, [⟨Hash.default, 0, [], 0⟩], [⟨3, [1]⟩, ⟨2, [2]⟩], 0⟩, UInt32.ofNat i⟩ : OutPoint) ∉
        (new.insert ⟨Hash.default, 0⟩ ⟨5, [1]⟩).2.utxos := by decide
  ⟨hlen, hvalid, hfresh, applyDiff_fromTransaction_of_validateTx _ _ _ hlen hvalid hfresh⟩

theorem not_mem_applyDiff_fromTransaction {sha256 : List UInt8 → List UInt8} {c c' : UtxoCollection}
    {tx : Transaction} (happly : c.applyDiff (UtxoDiff.fromTransaction sha256 tx) = (.ok (), c')) :
    ∀ spent ∈ tx.inputs, spent.outpoint ∉ c'.utxos := by
  obtain ⟨c'', hok, hc''⟩ := applyDiff_of_fresh (fresh_of_applyDiff_ok (congrArg Prod.fst happly))
  obtain rfl : c' = c'' := (Prod.mk.inj (happly.symm.trans hok)).2
  intro spent hspent hmem
  have hnone := lookup_eraseAll (insertAll c.utxos (UtxoDiff.fromTransaction sha256 tx).added)
    (tx.inputs.map TxInput.outpoint) spent.outpoint
  rw [if_pos (List.mem_map_of_mem _ hspent)] at hnone
  exact Finmap.lookup_eq_none.mp (hc'' ▸ hnone) hmem

/-- Once `apply_diff` has applied a transaction, `validate_tx` on a view of the
collection rejects every transaction that spends one of the outpoints it spent, the
same transaction replayed included. -/
theorem validateTx_rejects_spent_after_applyDiff (sha256 : List UInt8 → List UInt8)
    (c c' : UtxoCollection) (tx tx' : Transaction)
    (happly : c.applyDiff (UtxoDiff.fromTransaction sha256 tx) = (.ok (), c'))
    (hspends : ∃ input ∈ tx'.inputs, ∃ spent ∈ tx.inputs, input.outpoint = spent.outpoint) :
    (UtxoView.newFromCollection c').validateTx tx' ≠ .ok () := by
  obtain ⟨input, hinput, spent, hspent, heq⟩ := hspends
  intro hvalid
  have hin := ((UtxoView.newFromCollection c').good_of_validateTx_ok hvalid).1 input hinput
  exact not_mem_applyDiff_fromTransaction happly spent hspent (heq ▸ hin)

theorem validateTx_rejects_spent_after_applyDiff_replay :
    (new.insert ⟨Hash.default, 0⟩ ⟨5, [1]⟩).2.applyDiff (UtxoDiff.fromTransaction
        (fun _ => List.replicate 32 7) ⟨1, [⟨Hash.default, 0, [], 0⟩], [⟨3, [1]⟩, ⟨2, [2]⟩], 0⟩) =
      (.ok (), ((new.insert ⟨Hash.default, 0⟩ ⟨5, [1]⟩).2.applyDiff (UtxoDiff.fromTransaction
        (fun _ => List.replicate 32 7) ⟨1, [⟨Hash.default, 0, [], 0⟩], [⟨3, [1]⟩, ⟨2, [2]⟩], 0⟩)).2) ∧
    (∃ input ∈ [TxInput.mk Hash.default 0 [] 0], ∃ spent ∈ [TxInput.mk Hash.default 0 [] 0],
      input.outpoint = spent.outpoint) ∧
    (UtxoView.newFromCollection ((new.insert ⟨Hash.default, 0⟩ ⟨5, [1]⟩).2.applyDiff
        (UtxoDiff.fromTransaction (fun _ => List.replicate 32 7)
          ⟨1, [⟨Hash.default, 0, [], 0⟩], [⟨3, [1]⟩, ⟨2, [2]⟩], 0⟩)).2).validateTx
      ⟨1, [⟨Hash.default, 0, [], 0⟩], [⟨3, [1]⟩, ⟨2, [2]⟩], 0⟩ ≠ .ok () :=
  have happly : (new.insert ⟨Hash.default, 0⟩ ⟨5, [1]⟩).2.applyDiff (UtxoDiff.fromTransaction
        (fun _ => List.replicate 32 7) ⟨1, [⟨Hash.default, 0, [], 0⟩], [⟨3, [1]⟩, ⟨2, [2]⟩], 0⟩) =
      (.ok (), ((new.insert ⟨Hash.default, 0⟩ ⟨5, [1]⟩).2.applyDiff (UtxoDiff.fromTransaction
        (fun _ => List.replicate 32 7) ⟨1, [⟨Hash.default, 0, [], 0⟩], [⟨3, [1]⟩, ⟨2, [2]⟩], 0⟩)).2) := by
    decide
  have hspends : ∃ input ∈ [TxInput.mk Hash.default 0 [] 0], ∃ spent ∈ [TxInput.mk Hash.default 0 [] 0],
      input.outpoint = spent.outpoint := ⟨_, List.mem_singleton_self _, _, List.mem_singleton_self _, rfl⟩
  ⟨happly, hspends, validateTx_rejects_spent_after_applyDiff _ _ _ _ _ happly hspends⟩

end UtxoCollection

end Jiopad
