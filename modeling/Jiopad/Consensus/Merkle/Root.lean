import Jiopad.Consensus.Merkle

/-!
# What the Merkle root commits to

The tree over a range depends only on the hashes in it and its length, so the root of
`n ≥ 2` hashes is `double_sha256` of the roots of the first `⌈n / 2⌉` and of the rest.
Two lists of one length with one root are equal unless some node of the two trees has
two different pre-images with one `double_sha256`; every leaf has an inclusion path
that `proof_root` folds back to the root.
-/

namespace Jiopad

theorem Hash.asBytes_injective {h h' : Hash} (e : h.asBytes = h'.asBytes) : h = h' := by
  rw [← Hash.fromSlice_asBytes h, e, Hash.fromSlice_asBytes]

namespace MerkleTree

variable (sha256 : List UInt8 → List UInt8)

/-! ## Where the tree of a range reads the list -/

theorem buildTree_drop (txHashes : List Hash) (d start last : Nat) :
    buildTree sha256 (txHashes.drop d) start last = buildTree sha256 txHashes (d + start) (d + last) := by
  induction start, last using buildTree.induct sha256 (txHashes.drop d) with
  | case1 start last h mid ihl ihr =>
    have hmid : d + start + (d + last - (d + start)) / 2 = d + mid := by
      show _ = d + (start + (last - start) / 2)
      omega
    rw [buildTree_of_lt _ _ h, buildTree_of_lt _ _ (by omega : d + start < d + last), hmid, ← ihl,
      Nat.add_assoc d mid 1, ← ihr]
  | case2 start last h =>
    rw [buildTree_of_le _ _ (by omega), buildTree_of_le _ _ (by omega : d + last ≤ d + start),
      List.getD_eq_getElem?_getD, List.getD_eq_getElem?_getD, List.getElem?_drop]

theorem buildTree_take (txHashes : List Hash) {n start last : Nat} (hle : start ≤ last)
    (hlt : last < n) :
    buildTree sha256 (txHashes.take n) start last = buildTree sha256 txHashes start last := by
  induction start, last using buildTree.induct sha256 (txHashes.take n) with
  | case1 start last h mid ihl ihr =>
    rw [buildTree_of_lt _ _ h, buildTree_of_lt _ _ h, ihl (by omega) (by omega), ihr (by omega) hlt]
  | case2 start last h =>
    rw [buildTree_of_le _ _ (by omega), buildTree_of_le _ _ (by omega), List.getD_eq_getElem?_getD,
      List.getD_eq_getElem?_getD, List.getElem?_take_of_lt (by omega)]

theorem root_fromTxHashes_of_ne_nil {txHashes : List Hash} (h : txHashes ≠ []) :
    calculateMerkleRoot sha256 txHashes = (buildTree sha256 txHashes 0 (txHashes.length - 1)).hash := by
  have hne : txHashes.isEmpty = false := by simpa using h
  simp only [calculateMerkleRoot, fromTxHashes, root, hne, Bool.false_eq_true, if_false]

/-- The root of two or more hashes is `double_sha256` of the roots of the first
`⌈n / 2⌉` hashes and of the rest. -/
theorem calculateMerkleRoot_split (txHashes : List Hash) (h : 2 ≤ txHashes.length) :
    calculateMerkleRoot sha256 txHashes =
      doubleSha256 sha256
        ((calculateMerkleRoot sha256 (txHashes.take ((txHashes.length + 1) / 2))).asBytes ++
          (calculateMerkleRoot sha256 (txHashes.drop ((txHashes.length + 1) / 2))).asBytes) := by
  have hne : ∀ l : List Hash, 0 < l.length → l ≠ [] := fun l hl => List.ne_nil_of_length_pos hl
  set k := (txHashes.length + 1) / 2 with hk
  have hleft : (txHashes.take k).length - 1 = (txHashes.length - 1) / 2 := by
    rw [List.length_take]; omega
  have hright : (txHashes.drop k).length - 1 = txHashes.length - 1 - ((txHashes.length - 1) / 2 + 1) := by
    rw [List.length_drop]; omega
  rw [root_fromTxHashes_of_ne_nil sha256 (hne _ (by omega)),
    root_fromTxHashes_of_ne_nil sha256 (hne _ (by rw [List.length_take]; omega)),
    root_fromTxHashes_of_ne_nil sha256 (hne _ (by rw [List.length_drop]; omega)),
    buildTree_of_lt _ _ (by omega), hleft, hright, buildTree_take sha256 txHashes (Nat.zero_le _)
      (by omega), buildTree_drop, show k = (txHashes.length - 1) / 2 + 1 by omega,
    show (txHashes.length - 1) / 2 + 1 + (txHashes.length - 1 - ((txHashes.length - 1) / 2 + 1)) =
      txHashes.length - 1 by omega, Nat.zero_add, Nat.sub_zero, Nat.add_zero]
  rfl

theorem calculateMerkleRoot_split_three :
    2 ≤ [Hash.fromSlice [1], Hash.fromSlice [2], Hash.fromSlice [3]].length ∧
    calculateMerkleRoot Sha256.digest [Hash.fromSlice [1], Hash.fromSlice [2], Hash.fromSlice [3]] =
      doubleSha256 Sha256.digest
        ((calculateMerkleRoot Sha256.digest
            ([Hash.fromSlice [1], Hash.fromSlice [2], Hash.fromSlice [3]].take ((3 + 1) / 2))).asBytes ++
          (calculateMerkleRoot Sha256.digest
            ([Hash.fromSlice [1], Hash.fromSlice [2], Hash.fromSlice [3]].drop ((3 + 1) / 2))).asBytes) :=
  ⟨by decide, calculateMerkleRoot_split Sha256.digest _ (by decide)⟩

/-! ## Binding -/

/-- The bytes `build_tree(start, end)` hashes for a node over `start < end`: its
children's hashes, left then right. -/
def nodePreimage (txHashes : List Hash) (start last : Nat) : List UInt8 :=
  (buildTree sha256 txHashes start (start + (last - start) / 2)).hash.asBytes ++
    (buildTree sha256 txHashes (start + (last - start) / 2 + 1) last).hash.asBytes

theorem hash_buildTree_of_lt (txHashes : List Hash) {start last : Nat} (h : start < last) :
    (buildTree sha256 txHashes start last).hash = doubleSha256 sha256 (nodePreimage sha256 txHashes start last) := by
  rw [buildTree_of_lt _ _ h]
  rfl

theorem buildTree_hash_eq (txHashes txHashes' : List Hash) (start last : Nat)
    (h : (buildTree sha256 txHashes start last).hash = (buildTree sha256 txHashes' start last).hash) :
    (∀ i, start ≤ i → i ≤ last → txHashes.getD i Hash.default = txHashes'.getD i Hash.default) ∨
      ∃ s l, start ≤ s ∧ s < l ∧ l ≤ last ∧
        nodePreimage sha256 txHashes s l ≠ nodePreimage sha256 txHashes' s l ∧
        doubleSha256 sha256 (nodePreimage sha256 txHashes s l) =
          doubleSha256 sha256 (nodePreimage sha256 txHashes' s l) := by
  induction start, last using buildTree.induct sha256 txHashes with
  | case1 start last hlt mid ihl ihr =>
    have hmid : mid = start + (last - start) / 2 := rfl
    rw [hash_buildTree_of_lt _ _ hlt, hash_buildTree_of_lt _ _ hlt] at h
    by_cases hin : nodePreimage sha256 txHashes start last = nodePreimage sha256 txHashes' start last
    · obtain ⟨hl, hr⟩ := List.append_inj hin (by simp only [Hash.length_asBytes])
      rcases ihl (Hash.asBytes_injective hl) with hl | ⟨s, l, hs, hsl, hl', hc⟩
      · rcases ihr (Hash.asBytes_injective hr) with hr | ⟨s, l, hs, hsl, hl', hc⟩
        · refine .inl fun i hi hi' => ?_
          by_cases him : i ≤ mid
          · exact hl i hi him
          · exact hr i (by omega) hi'
        · exact .inr ⟨s, l, by omega, hsl, hl', hc⟩
      · exact .inr ⟨s, l, hs, hsl, by omega, hc⟩
    · exact .inr ⟨start, last, le_refl _, hlt, le_refl _, hin, h⟩
  | case2 start last hge =>
    rw [buildTree_of_le _ _ (by omega), buildTree_of_le _ _ (by omega)] at h
    refine .inl fun i hi hi' => ?_
    rw [show i = start by omega]
    exact h

/-- `calculate_merkle_root` binds lists of one length: two with the same root are
equal, or some node over positions `s < l` of the lists has two different pre-images,
one in each tree, with one `double_sha256`. -/
theorem calculateMerkleRoot_binding (txHashes txHashes' : List Hash)
    (hlen : txHashes.length = txHashes'.length)
    (h : calculateMerkleRoot sha256 txHashes = calculateMerkleRoot sha256 txHashes') :
    txHashes = txHashes' ∨
      ∃ s l, s < l ∧ l < txHashes.length ∧
        nodePreimage sha256 txHashes s l ≠ nodePreimage sha256 txHashes' s l ∧
        doubleSha256 sha256 (nodePreimage sha256 txHashes s l) =
          doubleSha256 sha256 (nodePreimage sha256 txHashes' s l) := by
  by_cases hnil : txHashes = []
  · subst hnil
    exact .inl (List.length_eq_zero.mp hlen.symm).symm
  · have hne' : txHashes' ≠ [] := fun e => hnil (List.length_eq_zero.mp (hlen.trans (e ▸ rfl)))
    have hpos : 0 < txHashes.length := List.length_pos.mpr hnil
    rw [root_fromTxHashes_of_ne_nil sha256 hnil, root_fromTxHashes_of_ne_nil sha256 hne', ← hlen] at h
    refine (buildTree_hash_eq sha256 _ _ _ _ h).imp (fun hget => ?_)
      fun ⟨s, l, _, hsl, hl, hc⟩ => ⟨s, l, hsl, by omega, hc⟩
    refine List.ext_getElem hlen fun i hi hi' => ?_
    have := hget i (Nat.zero_le _) (by omega)
    rwa [List.getD_eq_getElem?_getD, List.getD_eq_getElem?_getD, List.getElem?_eq_getElem hi,
      List.getElem?_eq_getElem hi', Option.getD_some, Option.getD_some] at this

theorem calculateMerkleRoot_binding_pair :
    [Hash.fromSlice [1], Hash.fromSlice [2]].length = [Hash.fromSlice [3], Hash.fromSlice [4]].length ∧
    calculateMerkleRoot (fun _ => List.replicate 32 7) [Hash.fromSlice [1], Hash.fromSlice [2]] =
      calculateMerkleRoot (fun _ => List.replicate 32 7) [Hash.fromSlice [3], Hash.fromSlice [4]] ∧
    ([Hash.fromSlice [1], Hash.fromSlice [2]] = [Hash.fromSlice [3], Hash.fromSlice [4]] ∨
      ∃ s l, s < l ∧ l < [Hash.fromSlice [1], Hash.fromSlice [2]].length ∧
        nodePreimage (fun _ => List.replicate 32 7) [Hash.fromSlice [1], Hash.fromSlice [2]] s l ≠
          nodePreimage (fun _ => List.replicate 32 7) [Hash.fromSlice [3], Hash.fromSlice [4]] s l ∧
        doubleSha256 (fun _ => List.replicate 32 7)
            (nodePreimage (fun _ => List.replicate 32 7) [Hash.fromSlice [1], Hash.fromSlice [2]] s l) =
          doubleSha256 (fun _ => List.replicate 32 7)
            (nodePreimage (fun _ => List.replicate 32 7) [Hash.fromSlice [3], Hash.fromSlice [4]] s l)) :=
  have h : calculateMerkleRoot (fun _ => List.replicate 32 7) [Hash.fromSlice [1], Hash.fromSlice [2]] =
      calculateMerkleRoot (fun _ => List.replicate 32 7) [Hash.fromSlice [3], Hash.fromSlice [4]] := by
    rw [root_fromTxHashes_of_ne_nil _ (List.cons_ne_nil _ _), root_fromTxHashes_of_ne_nil _ (List.cons_ne_nil _ _),
      hash_buildTree_of_lt _ _ (by decide), hash_buildTree_of_lt _ _ (by decide)]
    rfl
  ⟨rfl, h, calculateMerkleRoot_binding _ _ _ rfl h⟩

end MerkleTree

/-! ## Inclusion paths -/

namespace MerkleNode

/-- The inclusion path of leaf `i`: the sibling at each level from the leaf up, with
`true` when the sibling is on the right. -/
def path : MerkleNode → Nat → List (Hash × Bool)
  | leaf _, _ => []
  | internal _ left right, i =>
    if i < left.leaves.length then left.path i ++ [(right.hash, true)]
    else right.path (i - left.leaves.length) ++ [(left.hash, false)]

end MerkleNode

namespace MerkleTree

variable (sha256 : List UInt8 → List UInt8)

theorem proofRoot_append (leaf : Hash) (pre post : List (Hash × Bool)) :
    proofRoot sha256 leaf (pre ++ post) = proofRoot sha256 (proofRoot sha256 leaf pre) post := by
  induction pre generalizing leaf with
  | nil => rfl
  | cons step pre ih => exact ih _

theorem proofRoot_path {node : MerkleNode} (hc : node.HashesChildren sha256) {i : Nat}
    (hi : i < node.leaves.length) :
    proofRoot sha256 (node.leaves.getD i Hash.default) (node.path i) = node.hash ∧
      (node.path i).length ∈ node.depths := by
  induction node generalizing i with
  | leaf h =>
    simp only [MerkleNode.leaves, List.length_singleton, Nat.lt_one_iff] at hi
    subst hi
    exact ⟨rfl, List.mem_singleton_self 0⟩
  | internal h left right ihl ihr =>
    obtain ⟨hh, hcl, hcr⟩ := hc
    simp only [MerkleNode.leaves, MerkleNode.path, MerkleNode.depths, List.getD_eq_getElem?_getD,
      List.length_append] at hi ⊢
    split
    · next hlt =>
      obtain ⟨hroot, hdepth⟩ := ihl hcl hlt
      rw [List.getElem?_append_left hlt, ← List.getD_eq_getElem?_getD] at *
      refine ⟨by rw [proofRoot_append, hroot, hh]; rfl, ?_⟩
      rw [List.length_append, List.length_singleton]
      exact List.mem_map_of_mem _ (List.mem_append_left _ hdepth)
    · next hge =>
      have hlt : i - left.leaves.length < right.leaves.length := by omega
      obtain ⟨hroot, hdepth⟩ := ihr hcr hlt
      rw [List.getElem?_append_right (Nat.not_lt.mp hge), ← List.getD_eq_getElem?_getD]
      refine ⟨by rw [proofRoot_append, hroot, hh]; rfl, ?_⟩
      rw [List.length_append, List.length_singleton]
      exact List.mem_map_of_mem _ (List.mem_append_right _ hdepth)

/-- Every transaction hash of a non-empty list has an inclusion path in the tree
`from_tx_hashes` builds: `proof_root` of the hash along it is `calculate_merkle_root`,
and the path has `d` siblings with `2 ^ d < 2 * n` for the `n` hashes. -/
theorem fromTxHashes_inclusion (txHashes : List Hash) (i : Nat) (hi : i < txHashes.length) :
    proofRoot sha256 (txHashes.getD i Hash.default) ((fromTxHashes sha256 txHashes).node.path i) =
        calculateMerkleRoot sha256 txHashes ∧
      2 ^ ((fromTxHashes sha256 txHashes).node.path i).length < 2 * txHashes.length := by
  have hne : txHashes ≠ [] := List.ne_nil_of_length_pos (by omega)
  have hnode : (fromTxHashes sha256 txHashes).node = buildTree sha256 txHashes 0 (txHashes.length - 1) := by
    simp [fromTxHashes, hne]
  have hleaves := leaves_fromTxHashes sha256 hne
  rw [hnode] at hleaves ⊢
  obtain ⟨hroot, hdepth⟩ := proofRoot_path sha256 (hashesChildren_buildTree sha256 txHashes _ _)
    (i := i) (by rw [hleaves]; exact hi)
  rw [hleaves] at hroot
  refine ⟨by rw [hroot, root_fromTxHashes_of_ne_nil sha256 hne], ?_⟩
  have := (depths_buildTree sha256 txHashes (Nat.zero_le _) _ hdepth).1
  rwa [show txHashes.length - 1 + 1 - 0 = txHashes.length by omega] at this

theorem fromTxHashes_inclusion_third :
    2 < [Hash.fromSlice [1], Hash.fromSlice [2], Hash.fromSlice [3]].length ∧
    proofRoot Sha256.digest ([Hash.fromSlice [1], Hash.fromSlice [2], Hash.fromSlice [3]].getD 2 Hash.default)
        ((fromTxHashes Sha256.digest [Hash.fromSlice [1], Hash.fromSlice [2], Hash.fromSlice [3]]).node.path 2) =
      calculateMerkleRoot Sha256.digest [Hash.fromSlice [1], Hash.fromSlice [2], Hash.fromSlice [3]] ∧
    2 ^ ((fromTxHashes Sha256.digest
        [Hash.fromSlice [1], Hash.fromSlice [2], Hash.fromSlice [3]]).node.path 2).length <
      2 * [Hash.fromSlice [1], Hash.fromSlice [2], Hash.fromSlice [3]].length :=
  ⟨by decide, fromTxHashes_inclusion Sha256.digest _ 2 (by decide)⟩

end MerkleTree

end Jiopad
