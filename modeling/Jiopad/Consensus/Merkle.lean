import Jiopad.Consensus.Basic
import Jiopad.Sha256

/-!
# Merkle trees

`MerkleTree::from_tx_hashes` of `merkle.rs` builds the tree of `build_tree(0, len - 1)`:
a leaf for one index, else the node over `start..=mid` and `mid + 1..=end` hashing its
children with `double_sha256`.  Every call it makes has `start ≤ end` within the list,
and the leaves are the transaction hashes in order.
-/

namespace Jiopad

inductive MerkleNode where
  | leaf (hash : Hash)
  | internal (hash : Hash) (left right : MerkleNode)
  deriving DecidableEq

namespace MerkleNode

def hash : MerkleNode → Hash
  | leaf h => h
  | internal h _ _ => h

def leaves : MerkleNode → List Hash
  | leaf h => [h]
  | internal _ left right => left.leaves ++ right.leaves

def depths : MerkleNode → List Nat
  | leaf _ => [0]
  | internal _ left right => (left.depths ++ right.depths).map (· + 1)

def HashesChildren (sha256 : List UInt8 → List UInt8) : MerkleNode → Prop
  | leaf _ => True
  | internal h left right =>
    h = doubleSha256 sha256 (left.hash.asBytes ++ right.hash.asBytes) ∧
      HashesChildren sha256 left ∧ HashesChildren sha256 right

instance decidableHashesChildren (sha256 : List UInt8 → List UInt8) :
    (node : MerkleNode) → Decidable (HashesChildren sha256 node)
  | leaf _ => isTrue trivial
  | internal _ left right =>
    have := decidableHashesChildren sha256 left
    have := decidableHashesChildren sha256 right
    inferInstanceAs (Decidable (_ ∧ _ ∧ _))

end MerkleNode

structure MerkleTree where
  node : MerkleNode
  deriving DecidableEq

namespace MerkleTree

variable (sha256 : List UInt8 → List UInt8)

/-- `MerkleTree::build_tree(tx_hashes, start, end)`, with `end` named `last`.  The
calls of `from_tx_hashes` reach only `start ≤ end < tx_hashes.len()`, where the
source neither underflows nor indexes out of range; the model reads `start ≥ end`
as the base case and `tx_hashes[start]` with a default. -/
def buildTree (txHashes : List Hash) (start last : Nat) : MerkleNode :=
  if start < last then
    let mid := start + (last - start) / 2
    let left := buildTree txHashes start mid
    let right := buildTree txHashes (mid + 1) last
    .internal (doubleSha256 sha256 (left.hash.asBytes ++ right.hash.asBytes)) left right
  else .leaf (txHashes.getD start Hash.default)
termination_by last - start

theorem buildTree_of_lt (txHashes : List Hash) {start last : Nat} (h : start < last) :
    buildTree sha256 txHashes start last =
      .internal (doubleSha256 sha256
          ((buildTree sha256 txHashes start (start + (last - start) / 2)).hash.asBytes ++
            (buildTree sha256 txHashes (start + (last - start) / 2 + 1) last).hash.asBytes))
        (buildTree sha256 txHashes start (start + (last - start) / 2))
        (buildTree sha256 txHashes (start + (last - start) / 2 + 1) last) := by
  rw [buildTree, if_pos h]

theorem buildTree_of_le (txHashes : List Hash) {start last : Nat} (h : last ≤ start) :
    buildTree sha256 txHashes start last = .leaf (txHashes.getD start Hash.default) := by
  rw [buildTree, if_neg (Nat.not_lt.mpr h)]

/-- `MerkleTree::from_tx_hashes`, which never returns an error. -/
def fromTxHashes (txHashes : List Hash) : MerkleTree :=
  if txHashes.isEmpty then ⟨.leaf Hash.default⟩
  else ⟨buildTree sha256 txHashes 0 (txHashes.length - 1)⟩

def root (tree : MerkleTree) : Hash := tree.node.hash

/-- `MerkleTree::verify_proof`, a placeholder that accepts every proof. -/
def verifyProof (_txHash _root : Hash) (_proof : List Hash) : Bool := true

theorem leaves_buildTree (txHashes : List Hash) {start last : Nat} (hle : start ≤ last)
    (hlt : last < txHashes.length) :
    (buildTree sha256 txHashes start last).leaves = (txHashes.drop start).take (last + 1 - start) := by
  induction start, last using buildTree.induct sha256 txHashes with
  | case1 start last h mid ihl ihr =>
    have hmid : mid = start + (last - start) / 2 := rfl
    rw [buildTree, if_pos h, MerkleNode.leaves, ihl (by omega) (by omega), ihr (by omega) hlt,
      show last + 1 - start = (mid + 1 - start) + (last + 1 - (mid + 1)) by omega, List.take_add,
      List.drop_drop, show start + (mid + 1 - start) = mid + 1 by omega]
  | case2 start last h =>
    rw [buildTree, if_neg h, MerkleNode.leaves, show last + 1 - start = 1 by omega,
      List.drop_eq_getElem_cons (by omega), List.getD_eq_getElem?_getD,
      List.getElem?_eq_getElem (by omega)]
    rfl

theorem hashesChildren_buildTree (txHashes : List Hash) (start last : Nat) :
    (buildTree sha256 txHashes start last).HashesChildren sha256 := by
  induction start, last using buildTree.induct sha256 txHashes with
  | case1 start last h mid ihl ihr =>
    rw [buildTree, if_pos h]
    exact ⟨rfl, ihl, ihr⟩
  | case2 start last h =>
    rw [buildTree, if_neg h]
    trivial

private theorem two_pow_eq_one_or_even (d : Nat) : 2 ^ d = 1 ∨ 2 ^ d % 2 = 0 := by
  cases d with
  | zero => exact .inl rfl
  | succ d => exact .inr (by rw [Nat.pow_succ, Nat.mul_mod_left])

theorem depths_buildTree (txHashes : List Hash) {start last : Nat} (hle : start ≤ last) :
    ∀ d ∈ (buildTree sha256 txHashes start last).depths,
      2 ^ d < 2 * (last + 1 - start) ∧ last + 1 - start < 2 ^ (d + 1) := by
  induction start, last using buildTree.induct sha256 txHashes with
  | case1 start last h mid ihl ihr =>
    have hmid : mid = start + (last - start) / 2 := rfl
    rw [buildTree, if_pos h]
    simp only [MerkleNode.depths, List.mem_map, List.mem_append]
    rintro _ ⟨d, hd | hd, rfl⟩
    · obtain ⟨h₁, h₂⟩ := ihl (by omega) d hd
      have hpow := two_pow_eq_one_or_even d
      simp only [Nat.pow_succ] at h₂ ⊢
      omega
    · obtain ⟨h₁, h₂⟩ := ihr (by omega) d hd
      simp only [Nat.pow_succ] at h₂ ⊢
      omega
  | case2 start last h =>
    rw [buildTree, if_neg h]
    simp only [MerkleNode.depths, List.mem_singleton]
    rintro d rfl
    omega

theorem depths_le_succ_buildTree (txHashes : List Hash) {start last : Nat} (hle : start ≤ last) :
    ∀ d ∈ (buildTree sha256 txHashes start last).depths,
      ∀ d' ∈ (buildTree sha256 txHashes start last).depths, d ≤ d' + 1 := by
  intro d hd d' hd'
  have h₁ := (depths_buildTree sha256 txHashes hle d hd).1
  have h₂ := (depths_buildTree sha256 txHashes hle d' hd').2
  have hlt : 2 ^ d < 2 ^ (d' + 2) := by
    rw [Nat.pow_succ, Nat.pow_succ]
    rw [Nat.pow_succ] at h₂
    omega
  have := (Nat.pow_lt_pow_iff_right (by decide : 1 < 2)).mp hlt
  omega

theorem leaves_fromTxHashes {txHashes : List Hash} (h : txHashes ≠ []) :
    (fromTxHashes sha256 txHashes).node.leaves = txHashes := by
  have hpos : 0 < txHashes.length := List.length_pos.mpr h
  rw [fromTxHashes, if_neg (by simpa using h), leaves_buildTree sha256 txHashes (Nat.zero_le _)
    (by omega), List.drop_zero, show txHashes.length - 1 + 1 - 0 = txHashes.length by omega,
    List.take_length]

end MerkleTree

/-- `merkle::calculate_merkle_root`; `from_tx_hashes` never fails, so its
`unwrap_or_else` never applies. -/
def calculateMerkleRoot (sha256 : List UInt8 → List UInt8) (txHashes : List Hash) : Hash :=
  if txHashes.isEmpty then Hash.default else (MerkleTree.fromTxHashes sha256 txHashes).root

namespace MerkleTree

/-- The tree of a non-empty list of hashes has the list as its leaves, in order, every
internal node holds `double_sha256` of its children's hashes, and any two leaf depths
differ by at most one; its root is `calculate_merkle_root`.  For no hash both give the
all-zero hash. -/
theorem fromTxHashes_shape (sha256 : List UInt8 → List UInt8) :
    (∀ txHashes : List Hash, txHashes ≠ [] →
      (fromTxHashes sha256 txHashes).node.leaves = txHashes ∧
      (fromTxHashes sha256 txHashes).node.HashesChildren sha256 ∧
      (∀ d ∈ (fromTxHashes sha256 txHashes).node.depths,
        ∀ d' ∈ (fromTxHashes sha256 txHashes).node.depths, d ≤ d' + 1) ∧
      (fromTxHashes sha256 txHashes).root = calculateMerkleRoot sha256 txHashes) ∧
    (fromTxHashes sha256 []).root = Hash.default ∧ calculateMerkleRoot sha256 [] = Hash.default := by
  refine ⟨fun txHashes h => ?_, rfl, rfl⟩
  have hne : txHashes.isEmpty = false := by simpa using h
  refine ⟨leaves_fromTxHashes sha256 h, ?_, ?_, by simp [calculateMerkleRoot, hne]⟩
  · rw [fromTxHashes, if_neg (by simp [hne])]
    exact hashesChildren_buildTree sha256 txHashes _ _
  · rw [fromTxHashes, if_neg (by simp [hne])]
    exact depths_le_succ_buildTree sha256 txHashes (Nat.zero_le _)

theorem fromTxHashes_shape_three :
    [Hash.fromSlice [1], Hash.fromSlice [2], Hash.fromSlice [3]] ≠ [] ∧
    (fromTxHashes Sha256.digest [Hash.fromSlice [1], Hash.fromSlice [2], Hash.fromSlice [3]]).node.leaves =
      [Hash.fromSlice [1], Hash.fromSlice [2], Hash.fromSlice [3]] ∧
    (fromTxHashes Sha256.digest
      [Hash.fromSlice [1], Hash.fromSlice [2], Hash.fromSlice [3]]).node.HashesChildren Sha256.digest ∧
    (∀ d ∈ (fromTxHashes Sha256.digest [Hash.fromSlice [1], Hash.fromSlice [2], Hash.fromSlice [3]]).node.depths,
      ∀ d' ∈ (fromTxHashes Sha256.digest
        [Hash.fromSlice [1], Hash.fromSlice [2], Hash.fromSlice [3]]).node.depths, d ≤ d' + 1) ∧
    (fromTxHashes Sha256.digest [Hash.fromSlice [1], Hash.fromSlice [2], Hash.fromSlice [3]]).root =
      calculateMerkleRoot Sha256.digest [Hash.fromSlice [1], Hash.fromSlice [2], Hash.fromSlice [3]] :=
  ⟨by decide, (fromTxHashes_shape Sha256.digest).1 _ (by decide)⟩

/-- The root an inclusion proof leads to from a leaf, for a choice of side for each
sibling (`true`: the sibling is on the right): `double_sha256(acc ++ sibling)` or
`double_sha256(sibling ++ acc)` at each step, as a verifier of Merkle proofs folds. -/
def proofRoot (sha256 : List UInt8 → List UInt8) (leaf : Hash) : List (Hash × Bool) → Hash
  | [] => leaf
  | (sibling, right) :: rest =>
    proofRoot sha256 (if right then doubleSha256 sha256 (leaf.asBytes ++ sibling.asBytes)
      else doubleSha256 sha256 (sibling.asBytes ++ leaf.asBytes)) rest

/-- `verify_proof` accepts every leaf, root and proof.  In particular it accepts the
empty proof from the leaf `1` to the all-zero root, although with no sibling every
choice of sides leads from the leaf to the leaf itself, which is not the root. -/
theorem verifyProof_accepts_all (sha256 : List UInt8 → List UInt8) :
    (∀ txHash root proof, verifyProof txHash root proof = true) ∧
    verifyProof (Hash.fromSlice [1]) Hash.default [] = true ∧
    (∀ sides : List Bool,
      proofRoot sha256 (Hash.fromSlice [1]) (([] : List Hash).zip sides) = Hash.fromSlice [1]) ∧
    (Hash.fromSlice [1] == Hash.default) = false :=
  ⟨fun _ _ _ => rfl, rfl, fun _ => rfl, by decide⟩

end MerkleTree

end Jiopad
