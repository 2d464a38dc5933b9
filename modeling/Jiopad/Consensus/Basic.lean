import Jiopad.Math

/-!
# Consensus-core basics

The error type of consensus-core, the GHOSTDAG parameter type and the hashing
entry points of `hashing/mod.rs`.  Every digest there is SHA-256 from the `sha2`
crate, which is not part of this repository: it enters the model as the
parameter `sha256`, and `hash_data` reads the digest as a `Hash` through
`Hash::from_slice`.
-/

namespace Jiopad

abbrev KType := UInt16

inductive ConsensusError where
  | BlockHashMismatch (expected actual : Hash)
  | InvalidBlockHeader (msg : String)
  | TransactionValidation (msg : String)
  | UtxoNotFound (output : Hash)
  | InsufficientFunds
  | InvalidSignature
  | ScriptValidation (msg : String)
  | MerkleRootMismatch
  | MiningRuleViolation (msg : String)
  | DaaScoreCalculationFailed
  | InvalidKParameter (k : KType)
  | Pruning (msg : String)
  | NetworkProtocol (msg : String)
  | MissingGhostDagData
  | InvalidSelectedParent
  | NoValidParent
  | NoTips
  | NoCommonAncestor
  | InvalidAnticone
  | Generic (msg : String)
  deriving DecidableEq

instance decEqExcept {ε α : Type} [DecidableEq ε] [DecidableEq α] : DecidableEq (Except ε α)
  | .ok x, .ok y => decidable_of_iff (x = y) ⟨fun h => h ▸ rfl, fun h => by cases h; rfl⟩
  | .error x, .error y => decidable_of_iff (x = y) ⟨fun h => h ▸ rfl, fun h => by cases h; rfl⟩
  | .ok _, .error _ => isFalse fun h => by cases h
  | .error _, .ok _ => isFalse fun h => by cases h

abbrev ConsensusResult (α : Type) := Except ConsensusError α

section Hashing

variable (sha256 : List UInt8 → List UInt8)

def hashData (data : List UInt8) : Hash := Hash.fromSlice (sha256 data)

def hashTransaction (data : List UInt8) : Hash := hashData sha256 data

def hashBlockHeader (data : List UInt8) : Hash := hashData sha256 data

def hashMerkleRoot (hashes : List Hash) : Hash := hashData sha256 (hashes.flatMap Hash.asBytes)

def doubleSha256 (data : List UInt8) : Hash := hashData sha256 (hashData sha256 data).asBytes

def hashScript (data : List UInt8) : Hash := hashData sha256 data

end Hashing

end Jiopad
