import Jiopad.Consensus.Tx
import Jiopad.Consensus.MuHash
import Mathlib.Data.Finmap

/-!
# The UTXO collection

`UtxoCollection` of `utxo_collection.rs`: a map from outpoints to outputs behind
one lock and a MuHash behind another.  A method that takes `&self` and writes
through the locks is modelled as a function from the collection before the call
to the `Result` it returns and the collection after it, so that an error
returned half-way through `apply_diff` still shows what was written before it.
`apply_diff` runs one step per entry, an `insert` per added entry and then a
`remove` per removed outpoint, and returns at the first error.
-/

namespace Jiopad

structure OutPoint where
  txHash : Hash
  index : UInt32
  deriving DecidableEq

def TxInput.outpoint (input : TxInput) : OutPoint := ⟨input.prevTxHash, input.index⟩

inductive UtxoError where
  | NotFound (outpoint : TransactionOutpoint)
  | AlreadySpent (outpoint : TransactionOutpoint)
  | InvalidOutput (msg : String)
  | DiffApplicationFailed (msg : String)
  deriving DecidableEq

structure UtxoDiff where
  added : List (OutPoint × TxOutput)
  removed : List OutPoint
  deriving DecidableEq

/-- The `HashMap<OutPoint, TxOutput>` behind the collection's lock. -/
abbrev UtxoMap := Finmap fun _ : OutPoint => TxOutput

/-! ## Maps after a list of inserts or removes -/

def insertAll (m : UtxoMap) (entries : List (OutPoint × TxOutput)) : UtxoMap :=
  entries.foldl (fun m e => m.insert e.1 e.2) m

def eraseAll (m : UtxoMap) (outpoints : List OutPoint) : UtxoMap :=
  outpoints.foldl (fun m o => m.erase o) m

def Fresh : UtxoMap → List (OutPoint × TxOutput) → Prop
  | _, [] => True
  | m, e :: entries => e.1 ∉ m ∧ Fresh (m.insert e.1 e.2) entries

@[simp] theorem insertAll_nil (m : UtxoMap) : insertAll m [] = m := rfl

@[simp] theorem insertAll_cons (m : UtxoMap) (e : OutPoint × TxOutput) (entries) :
    insertAll m (e :: entries) = insertAll (m.insert e.1 e.2) entries := rfl

theorem mem_insertAll {m : UtxoMap} {entries : List (OutPoint × TxOutput)} {o : OutPoint} :
    o ∈ insertAll m entries ↔ o ∈ m ∨ o ∈ entries.map Prod.fst := by
  induction entries generalizing m with
  | nil => simp
  | cons e entries ih =>
    rw [insertAll_cons, ih, Finmap.mem_insert]
    simp only [List.map_cons, List.mem_cons]
    tauto

theorem fresh_iff {m : UtxoMap} {entries : List (OutPoint × TxOutput)} :
    Fresh m entries ↔ (entries.map Prod.fst).Nodup ∧ ∀ e ∈ entries, e.1 ∉ m := by
  induction entries generalizing m with
  | nil => simp [Fresh]
  | cons e entries ih =>
    simp only [Fresh, ih, Finmap.mem_insert, List.map_cons, List.nodup_cons, List.mem_map,
      List.forall_mem_cons, not_or]
    constructor
    · rintro ⟨he, hnd, hrest⟩
      exact ⟨⟨fun ⟨e', he', heq⟩ => (hrest e' he').1 heq, hnd⟩, he, fun e' he' => (hrest e' he').2⟩
    · rintro ⟨⟨hne, hnd⟩, he, hrest⟩
      exact ⟨he, hnd, fun e' he' => ⟨fun heq => hne ⟨e', he', heq⟩, hrest e' he'⟩⟩

theorem fresh_append {m : UtxoMap} {pre post : List (OutPoint × TxOutput)} :
    Fresh m (pre ++ post) ↔ Fresh m pre ∧ Fresh (insertAll m pre) post := by
  induction pre generalizing m with
  | nil => simp [Fresh]
  | cons e pre ih =>
    show e.1 ∉ m ∧ Fresh _ (pre ++ post) ↔ (e.1 ∉ m ∧ Fresh _ pre) ∧ Fresh (insertAll _ pre) post
    rw [ih, and_assoc]

theorem fresh_or_conflict (m : UtxoMap) (entries : List (OutPoint × TxOutput)) :
    Fresh m entries ∨ ∃ pre o out post, entries = pre ++ (o, out) :: post ∧ Fresh m pre ∧
      o ∈ insertAll m pre := by
  induction entries generalizing m with
  | nil => exact .inl trivial
  | cons e entries ih =>
    by_cases he : e.1 ∈ m
    · exact .inr ⟨[], e.1, e.2, entries, rfl, trivial, he⟩
    · rcases ih (m.insert e.1 e.2) with hf | ⟨pre, o, out, post, rfl, hpre, ho⟩
      · exact .inl ⟨he, hf⟩
      · exact .inr ⟨e :: pre, o, out, post, rfl, ⟨he, hpre⟩, ho⟩

theorem lookup_eraseAll (m : UtxoMap) (outpoints : List OutPoint) (o : OutPoint) :
    (eraseAll m outpoints).lookup o = if o ∈ outpoints then none else m.lookup o := by
  induction outpoints generalizing m with
  | nil => rfl
  | cons o' outpoints ih =>
    show (eraseAll (m.erase o') outpoints).lookup o = _
    rw [ih]
    by_cases h : o = o'
    · subst h; simp
    · simp [h, Finmap.lookup_erase_ne h]

theorem eraseAll_of_forall_not_mem {m : UtxoMap} {outpoints : List OutPoint}
    (h : ∀ o ∈ outpoints, o ∉ m) : eraseAll m outpoints = m := by
  refine Finmap.ext_lookup fun o => ?_
  rw [lookup_eraseAll]
  split
  · next ho => exact (Finmap.lookup_eq_none.mpr (h o ho)).symm
  · rfl

theorem lookup_insertAll_of_not_mem {m : UtxoMap} {entries : List (OutPoint × TxOutput)}
    {o : OutPoint} (h : o ∉ entries.map Prod.fst) : (insertAll m entries).lookup o = m.lookup o := by
  induction entries generalizing m with
  | nil => rfl
  | cons e entries ih =>
    rw [List.map_cons, List.mem_cons, not_or] at h
    rw [insertAll_cons, ih h.2, Finmap.lookup_insert_of_ne _ h.1]

theorem lookup_insertAll_of_mem {m : UtxoMap} {entries : List (OutPoint × TxOutput)} {o : OutPoint}
    {out : TxOutput} (hnd : (entries.map Prod.fst).Nodup) (h : (o, out) ∈ entries) :
    (insertAll m entries).lookup o = some out := by
  induction entries generalizing m with
  | nil => cases h
  | cons e entries ih =>
    rw [List.map_cons, List.nodup_cons] at hnd
    rw [insertAll_cons]
    rcases List.mem_cons.mp h with rfl | h
    · rw [lookup_insertAll_of_not_mem hnd.1, Finmap.lookup_insert]
    · exact ih hnd.2 h

/-! ## The collection and its operations -/

/-- `UtxoCollection`: the map and the MuHash over its outpoints' transaction hashes. -/
structure UtxoCollection where
  utxos : UtxoMap
  muhash : MuHash
  deriving DecidableEq

/-- One write-locked step of `apply_diff`. -/
inductive UtxoStep where
  | insert (outpoint : OutPoint) (output : TxOutput)
  | remove (outpoint : OutPoint)
  deriving DecidableEq

namespace UtxoCollection

def new : UtxoCollection := ⟨∅, MuHash.new⟩

/-- `UtxoCollection::insert`: refuses an outpoint that is present. -/
def insert (c : UtxoCollection) (outpoint : OutPoint) (output : TxOutput) :
    Except UtxoError Unit × UtxoCollection :=
  if outpoint ∈ c.utxos then
    (.error (.AlreadySpent ⟨outpoint.txHash, outpoint.index⟩), c)
  else
    (.ok (), ⟨c.utxos.insert outpoint output, c.muhash.add outpoint.txHash⟩)

/-- `UtxoCollection::remove`: never fails; the MuHash changes only when the
outpoint was present. -/
def remove (c : UtxoCollection) (outpoint : OutPoint) :
    Except UtxoError (Option TxOutput) × UtxoCollection :=
  let output := c.utxos.lookup outpoint
  let utxos := c.utxos.erase outpoint
  match output with
  | some _ => (.ok output, ⟨utxos, c.muhash.remove outpoint.txHash⟩)
  | none => (.ok output, ⟨utxos, c.muhash⟩)

def get (c : UtxoCollection) (outpoint : OutPoint) : Option TxOutput := c.utxos.lookup outpoint

def len (c : UtxoCollection) : Nat := c.utxos.keys.card

def step (c : UtxoCollection) : UtxoStep → Except UtxoError Unit × UtxoCollection
  | .insert outpoint output => c.insert outpoint output
  | .remove outpoint => ((c.remove outpoint).1.map fun _ => (), (c.remove outpoint).2)

/-- Run steps in order, returning at the first error with what was written so far. -/
def runSteps (c : UtxoCollection) : List UtxoStep → Except UtxoError Unit × UtxoCollection
  | [] => (.ok (), c)
  | s :: steps =>
    match c.step s with
    | (.ok (), c') => c'.runSteps steps
    | (.error e, c') => (.error e, c')

/-- `UtxoCollection::apply_diff`: one loop of inserts, then one loop of removes,
each with `?`. -/
def applyDiff (c : UtxoCollection) (diff : UtxoDiff) : Except UtxoError Unit × UtxoCollection :=
  match c.runSteps (diff.added.map fun e => .insert e.1 e.2) with
  | (.ok (), c') => c'.runSteps (diff.removed.map .remove)
  | (.error e, c') => (.error e, c')

def addEntries (c : UtxoCollection) (entries : List (OutPoint × TxOutput)) : UtxoCollection :=
  ⟨insertAll c.utxos entries, entries.foldl (fun m e => m.add e.1.txHash) c.muhash⟩

end UtxoCollection

def UtxoDiff.steps (diff : UtxoDiff) : List UtxoStep :=
  diff.added.map (fun e => .insert e.1 e.2) ++ diff.removed.map .remove

namespace UtxoCollection

theorem runSteps_append (c : UtxoCollection) (pre post : List UtxoStep) :
    c.runSteps (pre ++ post) =
      match c.runSteps pre with
      | (.ok (), c') => c'.runSteps post
      | (.error e, c') => (.error e, c') := by
  induction pre generalizing c with
  | nil => rfl
  | cons s pre ih =>
    simp only [List.cons_append, runSteps]
    split <;> simp [ih]

theorem applyDiff_eq_runSteps (c : UtxoCollection) (diff : UtxoDiff) :
    c.applyDiff diff = c.runSteps diff.steps := by
  rw [UtxoDiff.steps, runSteps_append, applyDiff]

theorem insert_of_not_mem {c : UtxoCollection} {o : OutPoint} (h : o ∉ c.utxos) (out : TxOutput) :
    c.insert o out = (.ok (), ⟨c.utxos.insert o out, c.muhash.add o.txHash⟩) := if_neg h

theorem insert_of_mem {c : UtxoCollection} {o : OutPoint} (h : o ∈ c.utxos) (out : TxOutput) :
    c.insert o out = (.error (.AlreadySpent ⟨o.txHash, o.index⟩), c) := if_pos h

theorem runSteps_inserts_of_fresh {c : UtxoCollection} {entries : List (OutPoint × TxOutput)}
    (h : Fresh c.utxos entries) :
    c.runSteps (entries.map fun e => .insert e.1 e.2) = (.ok (), c.addEntries entries) := by
  induction entries generalizing c with
  | nil => rfl
  | cons e entries ih =>
    simp only [List.map_cons, runSteps, step, insert_of_not_mem h.1]
    exact ih h.2

theorem runSteps_inserts_of_conflict {c : UtxoCollection}
    {pre post : List (OutPoint × TxOutput)} {o : OutPoint} (out : TxOutput)
    (hpre : Fresh c.utxos pre) (ho : o ∈ insertAll c.utxos pre) :
    c.runSteps ((pre ++ (o, out) :: post).map fun e => .insert e.1 e.2) =
      (.error (.AlreadySpent ⟨o.txHash, o.index⟩), c.addEntries pre) := by
  rw [List.map_append, runSteps_append, runSteps_inserts_of_fresh hpre]
  simp only [List.map_cons, runSteps, step, insert_of_mem (show o ∈ (c.addEntries pre).utxos from ho)]

theorem remove_utxos (c : UtxoCollection) (o : OutPoint) :
    (c.remove o).1 = .ok (c.utxos.lookup o) ∧ (c.remove o).2.utxos = c.utxos.erase o := by
  cases h : c.utxos.lookup o <;> simp [remove, h]

theorem runSteps_removes (c : UtxoCollection) (outpoints : List OutPoint) :
    ∃ c', c.runSteps (outpoints.map .remove) = (.ok (), c') ∧
      c'.utxos = eraseAll c.utxos outpoints := by
  induction outpoints generalizing c with
  | nil => exact ⟨c, rfl, rfl⟩
  | cons o outpoints ih =>
    obtain ⟨hr, hu⟩ := remove_utxos c o
    obtain ⟨c', hrun, hc'⟩ := ih (c.remove o).2
    refine ⟨c', ?_, ?_⟩
    · simp only [List.map_cons, runSteps, step, hr, Except.map]
      exact hrun
    · rw [hc', hu]; rfl

/-! ## What `apply_diff` returns and leaves -/

theorem applyDiff_of_fresh {c : UtxoCollection} {diff : UtxoDiff} (h : Fresh c.utxos diff.added) :
    ∃ c', c.applyDiff diff = (.ok (), c') ∧
      c'.utxos = eraseAll (insertAll c.utxos diff.added) diff.removed := by
  obtain ⟨c', hrun, hc'⟩ := runSteps_removes (c.addEntries diff.added) diff.removed
  exact ⟨c', by rw [applyDiff, runSteps_inserts_of_fresh h]; exact hrun, hc'⟩

theorem applyDiff_of_conflict {c : UtxoCollection} {diff : UtxoDiff}
    {pre post : List (OutPoint × TxOutput)} {o : OutPoint} {out : TxOutput}
    (hadd : diff.added = pre ++ (o, out) :: post) (hpre : Fresh c.utxos pre)
    (ho : o ∈ insertAll c.utxos pre) :
    c.applyDiff diff = (.error (.AlreadySpent ⟨o.txHash, o.index⟩), c.addEntries pre) := by
  rw [applyDiff, hadd, runSteps_inserts_of_conflict out hpre ho]

theorem fresh_of_applyDiff_ok {c : UtxoCollection} {diff : UtxoDiff}
    (h : (c.applyDiff diff).1 = .ok ()) : Fresh c.utxos diff.added := by
  rcases fresh_or_conflict c.utxos diff.added with hf | ⟨pre, o, out, post, hadd, hpre, ho⟩
  · exact hf
  · rw [applyDiff_of_conflict hadd hpre ho] at h
    cases h

/-- `apply_diff` fails exactly when an added outpoint is present when its insert
comes, in the collection or earlier in `diff.added`.  A removed outpoint that is
absent is passed over: removes never fail. -/
theorem applyDiff_error_iff (c : UtxoCollection) (diff : UtxoDiff) :
    (∃ e, (c.applyDiff diff).1 = .error e) ↔
      ∃ pre o out post, diff.added = pre ++ (o, out) :: post ∧
        (o ∈ c.utxos ∨ o ∈ pre.map Prod.fst) := by
  rcases fresh_or_conflict c.utxos diff.added with hf | ⟨pre, o, out, post, hadd, hpre, ho⟩
  · obtain ⟨c', hok, -⟩ := applyDiff_of_fresh hf
    rw [hok]
    refine iff_of_false (fun ⟨e, he⟩ => Except.noConfusion he) ?_
    rintro ⟨pre, o, out, post, hadd, hmem⟩
    rw [fresh_iff, hadd, List.map_append, List.nodup_append] at hf
    rcases hmem with h | h
    · exact hf.2 (o, out) (by simp) h
    · exact hf.1.2.2 h (List.mem_cons_self o _)
  · exact iff_of_true ⟨_, by rw [applyDiff_of_conflict hadd hpre ho]⟩
      ⟨pre, o, out, post, hadd, mem_insertAll.mp ho⟩

/-- Removing an outpoint the collection does not hold succeeds. -/
theorem applyDiff_remove_absent :
    (UtxoCollection.new.applyDiff ⟨[], [⟨Hash.default, 0⟩]⟩).1 = .ok () := by
  decide

/-- What `apply_diff` leaves.  On an error the entries of `diff.added` before the
first present outpoint stay inserted, with their MuHash updates, and no remove
has run: nothing is rolled back.  On success the map is the old map with every
added entry inserted in order and then every removed outpoint erased. -/
theorem applyDiff_no_rollback (c : UtxoCollection) (diff : UtxoDiff) :
    (∀ e c', c.applyDiff diff = (.error e, c') →
      ∃ pre o out post, diff.added = pre ++ (o, out) :: post ∧ Fresh c.utxos pre ∧
        o ∈ insertAll c.utxos pre ∧ e = .AlreadySpent ⟨o.txHash, o.index⟩ ∧
        c' = c.addEntries pre) ∧
    (∀ c', c.applyDiff diff = (.ok (), c') →
      c'.utxos = eraseAll (insertAll c.utxos diff.added) diff.removed) := by
  rcases fresh_or_conflict c.utxos diff.added with hf | ⟨pre, o, out, post, hadd, hpre, ho⟩
  · obtain ⟨c₀, hok, hc₀⟩ := applyDiff_of_fresh hf
    rw [hok]
    refine ⟨fun e c' h => ?_, fun c' h => ?_⟩
    · cases (Prod.mk.inj h).1
    · rw [← (Prod.mk.inj h).2, hc₀]
  · rw [applyDiff_of_conflict hadd hpre ho]
    refine ⟨fun e c' h => ?_, fun c' h => ?_⟩
    · obtain ⟨he, hc'⟩ := Prod.mk.inj h
      exact ⟨pre, o, out, post, hadd, hpre, ho, (Except.error.inj he).symm, hc'.symm⟩
    · cases (Prod.mk.inj h).1

/-- A diff whose second added outpoint is present fails and leaves its first
outpoint inserted. -/
theorem applyDiff_partial_write :
    ((UtxoCollection.new.insert ⟨Hash.default, 0⟩ ⟨0, []⟩).2.applyDiff
        ⟨[(⟨Hash.default, 1⟩, ⟨0, []⟩), (⟨Hash.default, 0⟩, ⟨0, []⟩)], []⟩).1 =
      .error (.AlreadySpent ⟨Hash.default, 0⟩) ∧
    ((UtxoCollection.new.insert ⟨Hash.default, 0⟩ ⟨0, []⟩).2.applyDiff
        ⟨[(⟨Hash.default, 1⟩, ⟨0, []⟩), (⟨Hash.default, 0⟩, ⟨0, []⟩)], []⟩).2 ≠
      (UtxoCollection.new.insert ⟨Hash.default, 0⟩ ⟨0, []⟩).2 := by
  decide

end UtxoCollection

end Jiopad
