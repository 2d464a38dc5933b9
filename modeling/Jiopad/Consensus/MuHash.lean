import Jiopad.Hashes

/-!
# The MuHash placeholder

`MuHash` of consensus-core keeps one `Hash` and folds an element in by XOR, lane
by lane over the four little-endian `u64` lanes; `remove` is `add`.  So `add` is
an action of a group in which every element is its own inverse: a fold of `add`
does not depend on the order of the elements, and adding an element twice undoes
it.  A sequence of `add` and `remove` calls therefore gives, from any state, a
state that depends only on the parity of each element's net count.
-/

namespace Jiopad

structure MuHash where
  state : Hash
  deriving DecidableEq

namespace MuHash

def new : MuHash := ⟨Hash.default⟩

def add (m : MuHash) (element : Hash) : MuHash :=
  ⟨Hash.fromLeU64 fun i => m.state.asLeU64 i ^^^ element.asLeU64 i⟩

/-- `MuHash::remove`, which calls `add` ("XOR is its own inverse"). -/
def remove (m : MuHash) (element : Hash) : MuHash := m.add element

def finalize (m : MuHash) : Hash := m.state

@[simp] theorem remove_eq_add (m : MuHash) (element : Hash) : m.remove element = m.add element :=
  rfl

private theorem xor_right_comm64 (x a b : UInt64) : x ^^^ a ^^^ b = x ^^^ b ^^^ a :=
  UInt64.eq_of_toBitVec_eq (by
    show x.toBitVec ^^^ a.toBitVec ^^^ b.toBitVec = x.toBitVec ^^^ b.toBitVec ^^^ a.toBitVec
    rw [BitVec.xor_assoc, BitVec.xor_comm a.toBitVec, ← BitVec.xor_assoc])

private theorem xor_xor_self64 (x a : UInt64) : x ^^^ a ^^^ a = x :=
  UInt64.eq_of_toBitVec_eq (by
    show x.toBitVec ^^^ a.toBitVec ^^^ a.toBitVec = x.toBitVec
    rw [BitVec.xor_assoc, BitVec.xor_self, BitVec.xor_zero])

theorem add_right_comm (m : MuHash) (a b : Hash) : (m.add a).add b = (m.add b).add a := by
  simp only [add, Hash.asLeU64_fromLeU64, xor_right_comm64]

theorem add_add_self (m : MuHash) (a : Hash) : (m.add a).add a = m := by
  simp only [add, Hash.asLeU64_fromLeU64, xor_xor_self64, Hash.fromLeU64_asLeU64]

theorem foldl_add_perm {l l' : List Hash} (h : l.Perm l') (m : MuHash) :
    l.foldl add m = l'.foldl add m :=
  h.foldl_eq' (fun x _ y _ z => add_right_comm z x y) m

theorem foldl_add_of_count_even :
    ∀ l : List Hash, (∀ x, l.count x % 2 = 0) → ∀ m : MuHash, l.foldl add m = m
  | [], _, _ => rfl
  | b :: t, h, m => by
    have hb : b ∈ t := List.count_pos_iff.mp (by have := h b; rw [List.count_cons_self] at this; omega)
    have hperm := List.perm_cons_erase hb
    have heven : ∀ x, (t.erase b).count x % 2 = 0 := fun x => by
      have hx := h x
      rw [List.count_cons, hperm.count_eq, List.count_cons] at hx
      split_ifs at hx <;> omega
    have : (t.erase b).length < (b :: t).length := by
      rw [List.length_erase_of_mem hb, List.length_cons]
      exact Nat.lt_of_le_of_lt (Nat.sub_le _ _) (Nat.lt_succ_self _)
    rw [List.foldl_cons, foldl_add_perm hperm, List.foldl_cons, add_add_self,
      foldl_add_of_count_even (t.erase b) heven]
termination_by l => l.length

theorem foldl_add_of_count_mod_two {l l' : List Hash} (h : ∀ x, l.count x % 2 = l'.count x % 2)
    (m : MuHash) : l.foldl add m = l'.foldl add m := by
  have hl' : ∀ x, (l' ++ l').count x % 2 = 0 := fun x => by rw [List.count_append]; omega
  have hll' : ∀ x, (l ++ l').count x % 2 = 0 := fun x => by
    rw [List.count_append]; have := h x; omega
  calc l.foldl add m
      = (l' ++ l').foldl add (l.foldl add m) := (foldl_add_of_count_even _ hl' _).symm
    _ = l'.foldl add ((l ++ l').foldl add m) := by rw [List.foldl_append, List.foldl_append]
    _ = l'.foldl add m := by rw [foldl_add_of_count_even _ hll']

end MuHash

/-! ## Sequences of calls -/

inductive MuHashOp where
  | add (element : Hash)
  | remove (element : Hash)
  deriving DecidableEq

namespace MuHashOp

def element : MuHashOp → Hash
  | add element => element
  | remove element => element

def netCount (x : Hash) : List MuHashOp → Int
  | [] => 0
  | add element :: ops => (if element = x then 1 else 0) + netCount x ops
  | remove element :: ops => (if element = x then -1 else 0) + netCount x ops

theorem netCount_emod_two (x : Hash) (ops : List MuHashOp) :
    netCount x ops % 2 = ((ops.map element).count x : Int) % 2 := by
  induction ops with
  | nil => rfl
  | cons op ops ih =>
    cases op <;>
      simp only [netCount, List.map_cons, element, List.count_cons, beq_iff_eq] <;>
      split_ifs <;> push_cast <;> omega

end MuHashOp

namespace MuHash

def apply (m : MuHash) : MuHashOp → MuHash
  | .add element => m.add element
  | .remove element => m.remove element

def applyOps (m : MuHash) (ops : List MuHashOp) : MuHash := ops.foldl apply m

theorem applyOps_eq_foldl (m : MuHash) (ops : List MuHashOp) :
    m.applyOps ops = (ops.map MuHashOp.element).foldl add m := by
  induction ops generalizing m with
  | nil => rfl
  | cons op ops ih => cases op <;> exact ih _

/-- From every state, two sequences of calls in which every element has the same net
count give the same `finalize()`, and a sequence in which every net count is zero
gives the state back.  Since `remove` is `add`, even the parity of each net count
decides the state. -/
theorem finalize_applyOps_of_netCount (m : MuHash) :
    (∀ ops ops' : List MuHashOp, (∀ x, MuHashOp.netCount x ops = MuHashOp.netCount x ops') →
      (m.applyOps ops).finalize = (m.applyOps ops').finalize) ∧
    ∀ ops : List MuHashOp, (∀ x, MuHashOp.netCount x ops = 0) → m.applyOps ops = m := by
  have key : ∀ ops ops' : List MuHashOp,
      (∀ x, MuHashOp.netCount x ops = MuHashOp.netCount x ops') →
        m.applyOps ops = m.applyOps ops' := fun ops ops' h => by
    rw [applyOps_eq_foldl, applyOps_eq_foldl]
    refine foldl_add_of_count_mod_two (fun x => ?_) m
    have h₁ := MuHashOp.netCount_emod_two x ops
    have h₂ := MuHashOp.netCount_emod_two x ops'
    rw [h x] at h₁
    omega
  exact ⟨fun ops ops' h => congrArg finalize (key ops ops' h), fun ops h => key ops [] h⟩

theorem finalize_add_remove :
    (MuHash.new.applyOps [.add (Hash.fromSlice [1]), .add (Hash.fromSlice [2]),
        .remove (Hash.fromSlice [2])]).finalize =
      (MuHash.new.applyOps [.add (Hash.fromSlice [1])]).finalize :=
  (finalize_applyOps_of_netCount MuHash.new).1 _ _ fun x => by
    simp only [MuHashOp.netCount]
    split_ifs <;> omega

end MuHash

end Jiopad
