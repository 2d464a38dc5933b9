import Jiopad.Consensus.Utxo.Collection

/-!
# The MuHash commitment of the UTXO collection

`insert` adds an outpoint's transaction hash to the MuHash exactly when it adds
the outpoint to the map, and `remove` removes it exactly when the outpoint was
there.  So the MuHash is always `MuHash::new()` with the transaction hash of
each outpoint of the map added once, in any order; `MuHashCommits` names that
invariant, every call keeps it, failing calls and half-applied diffs included.
-/

namespace Jiopad

/-- `MuHash::new()` after adding the transaction hash of each outpoint of `l`. -/
def muhashOf (l : List OutPoint) : MuHash :=
  (l.map OutPoint.txHash).foldl MuHash.add MuHash.new

theorem muhashOf_perm {l l' : List OutPoint} (h : l.Perm l') : muhashOf l = muhashOf l' :=
  MuHash.foldl_add_perm (h.map _) _

theorem muhashOf_concat (l : List OutPoint) (o : OutPoint) :
    muhashOf (l ++ [o]) = (muhashOf l).add o.txHash := by
  simp only [muhashOf, List.map_append, List.map_cons, List.map_nil, List.foldl_concat]

/-- The MuHash is `muhashOf` every duplicate-free enumeration of the map's outpoints. -/
def MuHashCommits (c : UtxoCollection) : Prop :=
  ∀ l : List OutPoint, l.Nodup → (∀ o, o ∈ l ↔ o ∈ c.utxos) → c.muhash = muhashOf l

theorem MuHashCommits.muhash_eq {c c' : UtxoCollection} (hc : MuHashCommits c)
    (hc' : MuHashCommits c') (hkeys : c.utxos.keys = c'.utxos.keys) : c.muhash = c'.muhash := by
  have henum : ∀ o, o ∈ c.utxos.keys.toList ↔ o ∈ c.utxos := fun o => by
    rw [Finset.mem_toList, Finmap.mem_keys]
  rw [hc _ (Finset.nodup_toList _) henum, hc' _ (Finset.nodup_toList _) fun o => by
    rw [henum, ← Finmap.mem_keys, hkeys, Finmap.mem_keys]]

inductive UtxoCall where
  | insert (outpoint : OutPoint) (output : TxOutput)
  | remove (outpoint : OutPoint)
  | applyDiff (diff : UtxoDiff)

namespace UtxoCollection

/-- The collection after a call, whether the call succeeded or not. -/
def call (c : UtxoCollection) : UtxoCall → UtxoCollection
  | .insert outpoint output => (c.insert outpoint output).2
  | .remove outpoint => (c.remove outpoint).2
  | .applyDiff diff => (c.applyDiff diff).2

def runCalls (c : UtxoCollection) (calls : List UtxoCall) : UtxoCollection :=
  calls.foldl call c

theorem commits_new : MuHashCommits new := by
  intro l _ hl
  cases l with
  | nil => rfl
  | cons o l => exact absurd ((hl o).mp (List.mem_cons_self o l)) Finmap.not_mem_empty

theorem commits_insert {c : UtxoCollection} (h : MuHashCommits c) (o : OutPoint) (out : TxOutput) :
    MuHashCommits (c.insert o out).2 := by
  by_cases ho : o ∈ c.utxos
  · rwa [insert_of_mem ho]
  rw [insert_of_not_mem ho]
  intro l hnd hl
  have hol : o ∈ l := (hl o).mpr (Finmap.mem_insert.mpr (.inl rfl))
  have hperm : l.Perm (l.erase o ++ [o]) :=
    (List.perm_cons_erase hol).trans (List.perm_append_singleton o _).symm
  have hrest : ∀ o', o' ∈ l.erase o ↔ o' ∈ c.utxos := by
    intro o'
    rw [hnd.mem_erase_iff, hl, Finmap.mem_insert]
    constructor
    · rintro ⟨hne, rfl | h'⟩
      exacts [absurd rfl hne, h']
    · intro h'; exact ⟨fun e => ho (e ▸ h'), .inr h'⟩
  rw [muhashOf_perm hperm, muhashOf_concat, h _ (hnd.erase o) hrest]

theorem commits_remove {c : UtxoCollection} (h : MuHashCommits c) (o : OutPoint) :
    MuHashCommits (c.remove o).2 := by
  intro l hnd hl
  have hmem : ∀ o', o' ∈ l ↔ o' ≠ o ∧ o' ∈ c.utxos := fun o' => by
    rw [hl, (remove_utxos c o).2, Finmap.mem_erase]
  cases hlook : c.utxos.lookup o with
  | none =>
    have ho : o ∉ c.utxos := Finmap.lookup_eq_none.mp hlook
    simp only [remove, hlook]
    exact h l hnd fun o' => by rw [hmem]; exact ⟨And.right, fun h' => ⟨fun e => ho (e ▸ h'), h'⟩⟩
  | some out =>
    have ho : o ∈ c.utxos := Finmap.mem_of_lookup_eq_some hlook
    have hol : o ∉ l := fun h' => ((hmem o).mp h').1 rfl
    have hall : ∀ o', o' ∈ l ++ [o] ↔ o' ∈ c.utxos := fun o' => by
      rw [List.mem_append, hmem, List.mem_singleton]
      by_cases e : o' = o <;> simp [e, ho]
    have hnd' : (l ++ [o]).Nodup := List.nodup_append.mpr
      ⟨hnd, List.nodup_singleton o, List.disjoint_singleton.mpr hol⟩
    simp only [remove, hlook, MuHash.remove_eq_add]
    rw [h _ hnd' hall, muhashOf_concat, MuHash.add_add_self]

theorem commits_runSteps {c : UtxoCollection} (h : MuHashCommits c) (steps : List UtxoStep) :
    MuHashCommits (c.runSteps steps).2 := by
  induction steps generalizing c with
  | nil => exact h
  | cons s steps ih =>
    have hs : MuHashCommits (c.step s).2 := by
      cases s with
      | insert o out => exact commits_insert h o out
      | remove o => exact commits_remove h o
    simp only [runSteps]
    split
    · next c' heq => exact ih (by rw [heq] at hs; exact hs)
    · next e c' heq => rw [heq] at hs; exact hs

theorem commits_call {c : UtxoCollection} (h : MuHashCommits c) (call : UtxoCall) :
    MuHashCommits (c.call call) := by
  cases call with
  | insert o out => exact commits_insert h o out
  | remove o => exact commits_remove h o
  | applyDiff diff => rw [UtxoCollection.call, applyDiff_eq_runSteps]; exact commits_runSteps h _

theorem commits_runCalls (calls : List UtxoCall) : MuHashCommits (new.runCalls calls) := by
  suffices ∀ c, MuHashCommits c → MuHashCommits (c.runCalls calls) from this _ commits_new
  induction calls with
  | nil => exact fun _ h => h
  | cons call calls ih => exact fun c h => ih _ (commits_call h call)

/-- From `UtxoCollection::new()`, after any calls, successful or failing, `muhash()`
is `MuHash::new()` with the transaction hash of every outpoint of the map added,
in any order; so two runs that leave the same outpoints have the same `muhash()`. -/
theorem muhash_runCalls (calls : List UtxoCall) :
    (∀ l : List OutPoint, l.Nodup → (∀ o, o ∈ l ↔ o ∈ (new.runCalls calls).utxos) →
      (new.runCalls calls).muhash.finalize = (muhashOf l).finalize) ∧
    ∀ calls', (new.runCalls calls').utxos.keys = (new.runCalls calls).utxos.keys →
      (new.runCalls calls').muhash.finalize = (new.runCalls calls).muhash.finalize := by
  exact ⟨fun l hnd hl => by rw [commits_runCalls calls l hnd hl], fun calls' hkeys =>
    congrArg MuHash.finalize ((commits_runCalls calls').muhash_eq (commits_runCalls calls) hkeys)⟩

end UtxoCollection

end Jiopad
