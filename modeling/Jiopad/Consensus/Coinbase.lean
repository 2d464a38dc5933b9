import Jiopad.Consensus.Utxo.Apply

/-!
# Coinbase transactions and block mass

`create_coinbase_transaction` builds a version-1 transaction with one input spending
the null outpoint `(Hash::default(), 0)` and one output paying the reward to the
script.  Its diff, applied to a collection holding neither the null outpoint nor its
own, adds one entry and raises the balance of its script by the reward and no other
balance.  `calculate_block_mass` adds up `Transaction::mass` as `u64`: a release build
wraps, to the sum of `100 + 50 · inputs + 30 · outputs` modulo `2 ^ 64`, and a debug
build, which panics on overflow, computes the same mass whenever that sum fits.
-/

namespace Jiopad

def createCoinbaseTransaction (reward : UInt64) (scriptPubkey : List UInt8) : Transaction :=
  ⟨1, [⟨Hash.default, 0, [], 0⟩], [⟨reward, scriptPubkey⟩], 0⟩

def validateCoinbase (tx : Transaction) : ConsensusResult Unit :=
  if !tx.isCoinbase then .error (.TransactionValidation "Not a coinbase transaction")
  else if tx.outputs.length ≠ 1 then
    .error (.TransactionValidation "Coinbase must have exactly one output")
  else .ok ()

namespace UtxoCollection

/-- Applying the diff of a coinbase, whose hash is not the null hash, to a collection
holding neither the null outpoint nor the coinbase's own outpoint succeeds, adds one
entry, and raises the balance of the coinbase's script by the reward and no other
balance. -/
theorem applyDiff_coinbase (sha256 : List UInt8 → List UInt8) (reward : UInt64)
    (scriptPubkey : List UInt8) (c : UtxoCollection)
    (hhash : (createCoinbaseTransaction reward scriptPubkey).hash sha256 ≠ Hash.default)
    (hnull : (⟨Hash.default, 0⟩ : OutPoint) ∉ c.utxos)
    (hown : (⟨(createCoinbaseTransaction reward scriptPubkey).hash sha256, 0⟩ : OutPoint) ∉ c.utxos) :
    ∃ c', c.applyDiff (UtxoDiff.fromTransaction sha256 (createCoinbaseTransaction reward scriptPubkey)) =
        (.ok (), c') ∧ c'.len = c.len + 1 ∧
      ∀ s, c'.balance s = c.balance s + if scriptPubkey = s then reward.toNat else 0 := by
  obtain ⟨c', happly, hlen, hbal⟩ := applyDiff_fromTransaction_accounting sha256 c
    (createCoinbaseTransaction reward scriptPubkey) (by simp [createCoinbaseTransaction])
    (fun i hi => by rw [show i = 0 by simpa [createCoinbaseTransaction] using hi]; exact hown)
    (List.nodup_singleton _)
    (fun input hinput hh => by
      rw [List.mem_singleton.mp hinput] at hh
      exact absurd hh.symm hhash)
  have hspent : ((createCoinbaseTransaction reward scriptPubkey).inputs.filterMap
      fun input => c.get input.outpoint) = [] := by
    simp [createCoinbaseTransaction, TxInput.outpoint, get, Finmap.lookup_eq_none.mpr hnull]
  rw [hspent] at hlen hbal
  refine ⟨c', happly, hlen, fun s => ?_⟩
  simpa only [creditSum, List.foldr_nil, List.foldr_cons, Nat.add_zero, createCoinbaseTransaction,
    TxOutput.credit] using hbal s

theorem applyDiff_coinbase_new :
    (createCoinbaseTransaction 50 [1]).hash (fun _ => List.replicate 32 7) ≠ Hash.default ∧
    (⟨Hash.default, 0⟩ : OutPoint) ∉ new.utxos ∧
    (⟨(createCoinbaseTransaction 50 [1]).hash (fun _ => List.replicate 32 7), 0⟩ : OutPoint) ∉ new.utxos ∧
    ∃ c', new.applyDiff (UtxoDiff.fromTransaction (fun _ => List.replicate 32 7)
        (createCoinbaseTransaction 50 [1])) = (.ok (), c') ∧ c'.len = new.len + 1 ∧
      ∀ s, c'.balance s = new.balance s + if [1] = s then (50 : UInt64).toNat else 0 :=
  have hhash : (createCoinbaseTransaction 50 [1]).hash (fun _ => List.replicate 32 7) ≠ Hash.default := by
    decide
  ⟨hhash, Finmap.not_mem_empty, Finmap.not_mem_empty,
    applyDiff_coinbase _ 50 [1] new hhash Finmap.not_mem_empty Finmap.not_mem_empty⟩

end UtxoCollection

/-! ## Block mass -/

def maxBlockMass : UInt64 := 500000

/-- `mass::calculate_block_mass`: `Transaction::mass` added up as `u64`. -/
def calculateBlockMass (transactions : List Transaction) : UInt64 :=
  transactions.foldl (fun mass tx => mass + tx.mass) 0

def validateBlockMass (mass : UInt64) : ConsensusResult Unit :=
  if mass > maxBlockMass then
    .error (.MiningRuleViolation
      ("Block mass " ++ toString mass ++ " exceeds maximum " ++ toString maxBlockMass))
  else .ok ()

theorem validateBlockMass_ok_iff (mass : UInt64) : validateBlockMass mass = .ok () ↔ mass ≤ maxBlockMass := by
  unfold validateBlockMass
  split_ifs with h <;> simp_all [UInt64.not_lt]

def massSum : List Transaction → Nat
  | [] => 0
  | tx :: txs => 100 + tx.inputs.length * 50 + tx.outputs.length * 30 + massSum txs

theorem length_mul_le_massSum (txs : List Transaction) : txs.length * 100 ≤ massSum txs := by
  induction txs with
  | nil => exact Nat.zero_le _
  | cons tx txs ih =>
    rw [massSum, List.length_cons]
    omega

theorem Transaction.toNat_mass (tx : Transaction) :
    tx.mass.toNat = (100 + tx.inputs.length * 50 + tx.outputs.length * 30) % 2 ^ 64 := by
  simp only [Transaction.mass, toNat_uint64_add, toNat_uint64_mul, toNat_uint64_ofNat]
  rw [show (100 : UInt64).toNat = 100 from rfl, show (50 : UInt64).toNat = 50 from rfl,
    show (30 : UInt64).toNat = 30 from rfl]
  omega

theorem toNat_foldl_mass (init : UInt64) (txs : List Transaction) :
    (txs.foldl (fun mass tx => mass + tx.mass) init).toNat = (init.toNat + massSum txs) % 2 ^ 64 := by
  induction txs generalizing init with
  | nil => exact (Nat.mod_eq_of_lt init.toNat_lt_size).symm
  | cons tx txs ih =>
    rw [List.foldl_cons, ih, toNat_uint64_add, Transaction.toNat_mass, massSum]
    omega

/-- When the masses of a block's transactions add up to less than `2 ^ 64`,
`validate_block_mass` accepts what `calculate_block_mass` computes exactly when that sum
is at most `MAX_BLOCK_MASS`; as each transaction weighs at least 100, a block it accepts
has at most 5000 transactions. -/
theorem validateBlockMass_calculateBlockMass (txs : List Transaction) (hfit : massSum txs < 2 ^ 64) :
    (validateBlockMass (calculateBlockMass txs) = .ok () ↔ massSum txs ≤ 500000) ∧
      (validateBlockMass (calculateBlockMass txs) = .ok () → txs.length ≤ 5000) := by
  have hmass : (calculateBlockMass txs).toNat = massSum txs := by
    rw [calculateBlockMass, toNat_foldl_mass, UInt64.toNat_zero, Nat.zero_add, Nat.mod_eq_of_lt hfit]
  have hiff : validateBlockMass (calculateBlockMass txs) = .ok () ↔ massSum txs ≤ 500000 := by
    rw [validateBlockMass_ok_iff, UInt64.le_def, BitVec.le_def, ← hmass]
    rfl
  have := length_mul_le_massSum txs
  exact ⟨hiff, fun h => by have := hiff.mp h; omega⟩

theorem validateBlockMass_calculateBlockMass_coinbase :
    massSum [createCoinbaseTransaction 50 [1]] < 2 ^ 64 ∧
      (validateBlockMass (calculateBlockMass [createCoinbaseTransaction 50 [1]]) = .ok () ↔
        massSum [createCoinbaseTransaction 50 [1]] ≤ 500000) ∧
      (validateBlockMass (calculateBlockMass [createCoinbaseTransaction 50 [1]]) = .ok () →
        [createCoinbaseTransaction 50 [1]].length ≤ 5000) :=
  have hfit : massSum [createCoinbaseTransaction 50 [1]] < 2 ^ 64 := by decide
  ⟨hfit, validateBlockMass_calculateBlockMass _ hfit⟩

/-- `Transaction::mass` as a debug build runs it: `none` where a product or a sum
overflows. -/
def Transaction.massChecked (tx : Transaction) : Option UInt64 := do
  let inputMass ← u64Mul (UInt64.ofNat tx.inputs.length) 50
  let outputMass ← u64Mul (UInt64.ofNat tx.outputs.length) 30
  u64Add (← u64Add 100 inputMass) outputMass

/-- `mass::calculate_block_mass` as a debug build runs it. -/
def calculateBlockMassChecked (transactions : List Transaction) : Option UInt64 :=
  transactions.foldlM (fun mass tx => do u64Add mass (← tx.massChecked)) 0

theorem Transaction.massChecked_of_lt (tx : Transaction)
    (h : 100 + tx.inputs.length * 50 + tx.outputs.length * 30 < 2 ^ 64) :
    tx.massChecked = some tx.mass := by
  have h50 : (50 : UInt64).toNat = 50 := rfl
  have h30 : (30 : UInt64).toNat = 30 := rfl
  have h100 : (100 : UInt64).toNat = 100 := rfl
  have hi : (UInt64.ofNat tx.inputs.length).toNat = tx.inputs.length := by
    rw [toNat_uint64_ofNat]; omega
  have ho : (UInt64.ofNat tx.outputs.length).toNat = tx.outputs.length := by
    rw [toNat_uint64_ofNat]; omega
  have hi50 : (UInt64.ofNat tx.inputs.length * 50).toNat = tx.inputs.length * 50 := by
    rw [toNat_uint64_mul, hi, h50]; omega
  have hbase : (100 + UInt64.ofNat tx.inputs.length * 50).toNat = 100 + tx.inputs.length * 50 := by
    rw [toNat_uint64_add, hi50, h100]; omega
  have ho30 : (UInt64.ofNat tx.outputs.length * 30).toNat = tx.outputs.length * 30 := by
    rw [toNat_uint64_mul, ho, h30]; omega
  have hinput : u64Mul (UInt64.ofNat tx.inputs.length) 50 = some (UInt64.ofNat tx.inputs.length * 50) :=
    u64Mul_of_lt (by rw [hi, h50]; omega)
  have houtput : u64Mul (UInt64.ofNat tx.outputs.length) 30 = some (UInt64.ofNat tx.outputs.length * 30) :=
    u64Mul_of_lt (by rw [ho, h30]; omega)
  have hsum₁ : u64Add 100 (UInt64.ofNat tx.inputs.length * 50) =
      some (100 + UInt64.ofNat tx.inputs.length * 50) := u64Add_of_lt (by rw [h100, hi50]; omega)
  have hsum₂ : u64Add (100 + UInt64.ofNat tx.inputs.length * 50) (UInt64.ofNat tx.outputs.length * 30) =
      some tx.mass := u64Add_of_lt (by rw [hbase, ho30]; omega)
  simp only [massChecked, Option.bind_eq_bind, hinput, houtput, hsum₁, hsum₂, Option.some_bind]

theorem foldlM_massChecked (init : UInt64) (txs : List Transaction)
    (h : init.toNat + massSum txs < 2 ^ 64) :
    txs.foldlM (fun mass tx => do u64Add mass (← tx.massChecked)) init =
      some (txs.foldl (fun mass tx => mass + tx.mass) init) := by
  induction txs generalizing init with
  | nil => rfl
  | cons tx txs ih =>
    rw [massSum] at h
    have hmass : tx.mass.toNat = 100 + tx.inputs.length * 50 + tx.outputs.length * 30 := by
      rw [Transaction.toNat_mass]; omega
    have hadd : (init + tx.mass).toNat = init.toNat + tx.mass.toNat := by
      rw [toNat_uint64_add]; omega
    have hstep : u64Add init tx.mass = some (init + tx.mass) := u64Add_of_lt (by omega)
    simp only [List.foldlM_cons, List.foldl_cons, Option.bind_eq_bind,
      tx.massChecked_of_lt (by omega), Option.some_bind, hstep]
    exact ih _ (by omega)

/-- Where the masses of a block's transactions add up to less than `2 ^ 64`, a debug build
of `calculate_block_mass` does not panic and computes the mass a release build does. -/
theorem calculateBlockMassChecked_of_lt (txs : List Transaction) (hfit : massSum txs < 2 ^ 64) :
    calculateBlockMassChecked txs = some (calculateBlockMass txs) :=
  foldlM_massChecked 0 txs (by rw [UInt64.toNat_zero, Nat.zero_add]; exact hfit)

theorem calculateBlockMassChecked_of_lt_coinbase :
    massSum [createCoinbaseTransaction 50 [1]] < 2 ^ 64 ∧
      calculateBlockMassChecked [createCoinbaseTransaction 50 [1]] =
        some (calculateBlockMass [createCoinbaseTransaction 50 [1]]) :=
  have hfit : massSum [createCoinbaseTransaction 50 [1]] < 2 ^ 64 := by decide
  ⟨hfit, calculateBlockMassChecked_of_lt _ hfit⟩

end Jiopad
