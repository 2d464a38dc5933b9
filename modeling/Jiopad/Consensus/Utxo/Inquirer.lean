import Jiopad.Consensus.Utxo.Collection
import Mathlib.Data.Fin.VecNotation

/-!
# Read-only queries

`UtxoInquirer` of `utxo_inquirer.rs`.  `get_balance` adds up the values of the outputs of
one script with `u64`'s `sum()`, modelled as a debug build runs it: it returns the exact
total `balance` when that is below `2 ^ 64`, whatever order the map is iterated in, and
panics otherwise.
-/

namespace Jiopad

namespace UtxoCollection

def getUtxo (c : UtxoCollection) (outpoint : OutPoint) : Option TxOutput := c.get outpoint

/-- The outputs `get_balance` adds up, `utxos.values().filter(..)`: a multiset, since
the map's iteration order is unspecified. -/
def scriptOutputs (c : UtxoCollection) (scriptPubkey : List UInt8) : Multiset TxOutput :=
  (c.utxos.entries.map Sigma.snd).filter fun output => output.scriptPubkey = scriptPubkey

end UtxoCollection

def UtxoCollection.exists (c : UtxoCollection) (outpoint : OutPoint) : Bool :=
  (c.getUtxo outpoint).isSome

/-- One checked addition of `sum()`: `none` from the first overflow on. -/
def TxOutput.addValue (output : TxOutput) (total : Option UInt64) : Option UInt64 :=
  total.bind fun t => u64Add t output.value

def TxOutput.addValueNat (output : TxOutput) (total : Nat) : Nat := total + output.value.toNat

theorem TxOutput.addValue_u64OfNat (output : TxOutput) (n : Nat) :
    output.addValue (u64OfNat n) = u64OfNat (n + output.value.toNat) := by
  by_cases h : n < 2 ^ 64
  · rw [u64OfNat_of_lt h, addValue, Option.some_bind, u64Add_eq, toNat_uint64_ofNat,
      Nat.mod_eq_of_lt h]
  · rw [u64OfNat, if_neg h, u64OfNat, if_neg (by omega)]
    rfl

instance : LeftCommutative TxOutput.addValue where
  left_comm a b total := by
    cases total with
    | none => rfl
    | some t =>
      simp only [← u64OfNat_toNat t, TxOutput.addValue_u64OfNat, Nat.add_right_comm]

instance : LeftCommutative TxOutput.addValueNat where
  left_comm _ _ _ := Nat.add_right_comm _ _ _

namespace UtxoCollection

/-- `UtxoInquirer::get_balance`, with `sum()` as a debug build runs it: `none` where an
addition overflows and the program panics. -/
def getBalance (c : UtxoCollection) (scriptPubkey : List UInt8) : Option UInt64 :=
  (c.scriptOutputs scriptPubkey).foldr TxOutput.addValue (some 0)

/-- The exact total of the values `get_balance` adds up. -/
def balance (c : UtxoCollection) (scriptPubkey : List UInt8) : Nat :=
  (c.scriptOutputs scriptPubkey).foldr TxOutput.addValueNat 0

theorem foldr_addValue (m : Multiset TxOutput) (n : Nat) :
    m.foldr TxOutput.addValue (u64OfNat n) = u64OfNat (m.foldr TxOutput.addValueNat n) := by
  induction m using Multiset.induction_on with
  | empty => rfl
  | cons output m ih =>
    rw [Multiset.foldr_cons, Multiset.foldr_cons, ih, TxOutput.addValue_u64OfNat]
    rfl

/-- `get_balance` returns the exact balance when it fits in a `u64` and panics
otherwise, whatever order the map is iterated in. -/
theorem getBalance_eq (c : UtxoCollection) (scriptPubkey : List UInt8) :
    c.getBalance scriptPubkey = u64OfNat (c.balance scriptPubkey) := by
  rw [getBalance, balance, ← foldr_addValue]
  rfl

example :
    ((new.insert ⟨Hash.default, 0⟩ ⟨100, [1, 2, 3]⟩).2.insert
      ⟨Hash.fromLeU64 ![1, 0, 0, 0], 0⟩ ⟨200, [1, 2, 3]⟩).2.getBalance [1, 2, 3] = some 300 := by
  decide

end UtxoCollection

def TxOutput.credit (output : TxOutput) (scriptPubkey : List UInt8) : Nat :=
  if output.scriptPubkey = scriptPubkey then output.value.toNat else 0

namespace UtxoCollection

private theorem balance_insert_map {c : UtxoCollection} {o : OutPoint} (h : o ∉ c.utxos)
    (out : TxOutput) (m : MuHash) (scriptPubkey : List UInt8) :
    balance ⟨c.utxos.insert o out, m⟩ scriptPubkey = c.balance scriptPubkey + out.credit scriptPubkey := by
  simp only [balance, scriptOutputs, Finmap.insert_entries_of_neg h, Multiset.map_cons, TxOutput.credit]
  by_cases hs : out.scriptPubkey = scriptPubkey
  · simp only [Multiset.filter_cons_of_pos, hs, Multiset.foldr_cons, if_true]
    rfl
  · simp [hs]

theorem balance_insert (c : UtxoCollection) (o : OutPoint) (out : TxOutput)
    (scriptPubkey : List UInt8) :
    (c.insert o out).2.balance scriptPubkey =
      if o ∈ c.utxos then c.balance scriptPubkey
      else c.balance scriptPubkey + out.credit scriptPubkey := by
  split
  · next h => rw [insert_of_mem h]
  · next h => rw [insert_of_not_mem h, balance_insert_map h]

theorem balance_remove (c : UtxoCollection) (o : OutPoint) (scriptPubkey : List UInt8) :
    (c.remove o).2.balance scriptPubkey + ((c.get o).map fun out => out.credit scriptPubkey).getD 0 =
      c.balance scriptPubkey := by
  have hrest : (c.remove o).2.balance scriptPubkey =
      balance ⟨c.utxos.erase o, c.muhash⟩ scriptPubkey := by
    simp only [balance, scriptOutputs, (remove_utxos c o).2]
  rw [hrest]
  cases hget : c.get o with
  | none =>
    have hno : c.utxos.erase o = c.utxos := Finmap.ext_lookup fun o' => by
      by_cases e : o' = o
      · subst e; rw [Finmap.lookup_erase]; exact hget.symm
      · rw [Finmap.lookup_erase_ne e]
    rw [Option.map_none', Option.getD_none, Nat.add_zero, hno]
  | some out =>
    have hsplit : (c.utxos.erase o).insert o out = c.utxos := Finmap.ext_lookup fun o' => by
      by_cases e : o' = o
      · subst e; rw [Finmap.lookup_insert]; exact hget.symm
      · rw [Finmap.lookup_insert_of_ne _ e, Finmap.lookup_erase_ne e]
    rw [Option.map_some', Option.getD_some, ← balance_insert_map Finmap.not_mem_erase_self out c.muhash]
    simp only [hsplit]

end UtxoCollection

end Jiopad
