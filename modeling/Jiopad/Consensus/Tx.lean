import Jiopad.Consensus.Basic

/-!
# Transactions

The transaction types of `tx.rs`, the byte string `Transaction::hash` digests, which
records no count of inputs or outputs and no script length, and `Transaction::validate`,
which succeeds exactly when there is an input and an output and the inputs'
`(prev_tx_hash, index)` keys are distinct.  `mass` wraps, as a release build does; the
debug build is `Transaction.massChecked`.
-/

namespace Jiopad

structure TxInput where
  prevTxHash : Hash
  index : UInt32
  scriptSig : List UInt8
  sequence : UInt32
  deriving DecidableEq

structure TxOutput where
  value : UInt64
  scriptPubkey : List UInt8
  deriving DecidableEq

structure Transaction where
  version : UInt16
  inputs : List TxInput
  outputs : List TxOutput
  lockTime : UInt32
  deriving DecidableEq

structure TransactionOutpoint where
  transactionId : Hash
  index : UInt32
  deriving DecidableEq

def TxInput.key (input : TxInput) : Hash × UInt32 := (input.prevTxHash, input.index)

def TxInput.hashBytes (input : TxInput) : List UInt8 :=
  input.prevTxHash.asBytes ++ input.index.toLeBytes ++ input.scriptSig ++
    input.sequence.toLeBytes

def TxOutput.hashBytes (output : TxOutput) : List UInt8 :=
  output.value.toLeBytes ++ output.scriptPubkey

namespace Transaction

def hashPreimage (tx : Transaction) : List UInt8 :=
  tx.version.toLeBytes ++ tx.inputs.flatMap TxInput.hashBytes ++
    tx.outputs.flatMap TxOutput.hashBytes ++ tx.lockTime.toLeBytes

def hash (sha256 : List UInt8 → List UInt8) (tx : Transaction) : Hash :=
  hashTransaction sha256 tx.hashPreimage

def isCoinbase (tx : Transaction) : Bool :=
  match tx.inputs with
  | [input] => input.prevTxHash == Hash.default
  | _ => false

/-- `Transaction::mass`. -/
def mass (tx : Transaction) : UInt64 :=
  100 + UInt64.ofNat tx.inputs.length * 50 + UInt64.ofNat tx.outputs.length * 30

/-- The loop of `Transaction::validate` over the inputs, with the keys seen so far:
`seen.insert(key)` fails on a key already in the set. -/
def checkDuplicateInputs : List (Hash × UInt32) → List TxInput → ConsensusResult Unit
  | _, [] => .ok ()
  | seen, input :: inputs =>
    if input.key ∈ seen then .error (.TransactionValidation "Duplicate transaction inputs")
    else checkDuplicateInputs (input.key :: seen) inputs

def validate (tx : Transaction) : ConsensusResult Unit :=
  if tx.inputs.isEmpty then
    .error (.TransactionValidation "Transaction must have at least one input")
  else if tx.outputs.isEmpty then
    .error (.TransactionValidation "Transaction must have at least one output")
  else checkDuplicateInputs [] tx.inputs

theorem checkDuplicateInputs_eq (seen : List (Hash × UInt32)) (inputs : List TxInput) :
    checkDuplicateInputs seen inputs =
      if (inputs.map TxInput.key).Nodup ∧ ∀ input ∈ inputs, input.key ∉ seen then .ok ()
      else .error (.TransactionValidation "Duplicate transaction inputs") := by
  induction inputs generalizing seen with
  | nil => simp [checkDuplicateInputs]
  | cons input inputs ih =>
    by_cases h : input.key ∈ seen
    · simp [checkDuplicateInputs, h]
    · rw [checkDuplicateInputs, if_neg h, ih]
      refine if_congr ?_ rfl rfl
      simp only [List.map_cons, List.nodup_cons, List.mem_map, List.mem_cons, not_or,
        forall_eq_or_imp, h, not_false_eq_true, true_and, not_exists, not_and, imp_and, forall_and]
      tauto

theorem validate_eq (tx : Transaction) :
    tx.validate =
      if tx.inputs = [] then .error (.TransactionValidation "Transaction must have at least one input")
      else if tx.outputs = [] then
        .error (.TransactionValidation "Transaction must have at least one output")
      else if (tx.inputs.map TxInput.key).Nodup then .ok ()
      else .error (.TransactionValidation "Duplicate transaction inputs") := by
  simp [validate, checkDuplicateInputs_eq]

example : (Transaction.mk 1 [⟨Hash.default, 0, [], 0⟩, ⟨Hash.default, 0, [1], 1⟩] [⟨5, []⟩] 0).validate =
    .error (.TransactionValidation "Duplicate transaction inputs") := by
  decide

/-- `Transaction::validate` succeeds exactly when there is an input and an output and
no two inputs share their `(prev_tx_hash, index)`. -/
theorem validate_ok_iff (tx : Transaction) :
    tx.validate = .ok () ↔ tx.inputs ≠ [] ∧ tx.outputs ≠ [] ∧
      (tx.inputs.map fun input => (input.prevTxHash, input.index)).Nodup := by
  change _ ↔ _ ∧ _ ∧ (tx.inputs.map TxInput.key).Nodup
  rw [validate_eq]
  split_ifs <;> simp_all

/-- The pre-image is not injective: one output of value 5 whose script is the eight
bytes of the number 7 writes the same bytes as two outputs of values 5 and 7 with
empty scripts. -/
theorem hashPreimage_not_injective :
    Transaction.mk 1 [] [⟨5, [7, 0, 0, 0, 0, 0, 0, 0]⟩] 0 ≠ Transaction.mk 1 [] [⟨5, []⟩, ⟨7, []⟩] 0 ∧
      (Transaction.mk 1 [] [⟨5, [7, 0, 0, 0, 0, 0, 0, 0]⟩] 0).hashPreimage =
        (Transaction.mk 1 [] [⟨5, []⟩, ⟨7, []⟩] 0).hashPreimage :=
  ⟨by decide, by decide⟩

end Transaction

end Jiopad
