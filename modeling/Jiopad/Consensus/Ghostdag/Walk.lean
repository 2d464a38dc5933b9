import Jiopad.Hashes
import Mathlib.Algebra.BigOperators.Group.Finset

/-!
# Breadth-first walks

The blue-set walk of `calculate_blue_set` and the descendant count of
`calculate_anticone_size_optimized` are one loop: pop a hash, pass over it when visited
or skipped, otherwise visit it and push what `next` gives.  `walk` runs on fuel; a fuel
of the queue's length plus the sum of `next` over a finite set closed under `next`
always empties the queue (`walk_queue_nil`), so the bound never cuts the loop short.
-/

namespace Jiopad

structure WalkState (σ : Type) where
  queue : List Hash
  visited : List Hash
  acc : σ

section Walk

variable {σ : Type} (next : Hash → List Hash) (skip : Hash → Bool) (visit : σ → Hash → σ)

def walk : Nat → WalkState σ → WalkState σ
  | 0, s => s
  | _ + 1, ⟨[], visited, acc⟩ => ⟨[], visited, acc⟩
  | fuel + 1, ⟨current :: queue, visited, acc⟩ =>
    if current ∈ visited ∨ skip current = true then walk fuel ⟨queue, visited, acc⟩
    else walk fuel ⟨queue ++ next current, visited ++ [current], visit acc current⟩

theorem walk_extends (fuel : Nat) (s : WalkState σ) :
    ∃ new, (walk next skip visit fuel s).visited = s.visited ++ new ∧
      (walk next skip visit fuel s).acc = new.foldl visit s.acc := by
  induction fuel generalizing s with
  | zero => exact ⟨[], by simp [walk], rfl⟩
  | succ fuel ih =>
    obtain ⟨queue, visited, acc⟩ := s
    cases queue with
    | nil => exact ⟨[], by simp [walk], rfl⟩
    | cons current queue =>
      simp only [walk]
      split
      · exact ih _
      · obtain ⟨new, hv, ha⟩ := ih ⟨queue ++ next current, visited ++ [current], visit acc current⟩
        exact ⟨current :: new, by simpa using hv, ha⟩

/-! ## Termination -/

def pending (U : Finset Hash) (s : WalkState σ) : Nat :=
  s.queue.length + ∑ h ∈ U.filter (· ∉ s.visited), (next h).length

private theorem pending_visit {U : Finset Hash} (hU : ∀ h ∉ U, next h = [])
    {visited : List Hash} {current : Hash} (hc : current ∉ visited) :
    (∑ h ∈ U.filter (· ∉ visited ++ [current]), (next h).length) + (next current).length =
      ∑ h ∈ U.filter (· ∉ visited), (next h).length := by
  have herase : U.filter (· ∉ visited ++ [current]) = (U.filter (· ∉ visited)).erase current := by
    ext h
    simp only [Finset.mem_filter, Finset.mem_erase, List.mem_append, List.mem_singleton, not_or]
    tauto
  rw [herase]
  by_cases hU' : current ∈ U
  · exact Finset.sum_erase_add _ _ (Finset.mem_filter.mpr ⟨hU', hc⟩)
  · rw [hU current hU', List.length_nil, Nat.add_zero,
      Finset.erase_eq_of_not_mem (fun h => hU' (Finset.mem_filter.mp h).1)]

theorem walk_queue_nil {U : Finset Hash} (hU : ∀ h ∉ U, next h = []) (fuel : Nat)
    (s : WalkState σ) (hfuel : pending next U s ≤ fuel) :
    (walk next skip visit fuel s).queue = [] := by
  induction fuel generalizing s with
  | zero =>
    obtain ⟨queue, visited, acc⟩ := s
    cases queue with
    | nil => rfl
    | cons _ _ => simp [pending] at hfuel
  | succ fuel ih =>
    obtain ⟨queue, visited, acc⟩ := s
    cases queue with
    | nil => rfl
    | cons current queue =>
      simp only [walk]
      split
      · exact ih _ (by simp only [pending, List.length_cons] at hfuel ⊢; omega)
      · next hc =>
        apply ih
        have := pending_visit next hU (not_or.mp hc).1
        simp only [pending, List.length_cons, List.length_append] at hfuel ⊢
        omega

/-! ## What a walk visits -/

/-- The hashes a walk from `start` reaches: hashes of `start`, then what `next`
gives for a reached hash, never through a skipped hash. -/
inductive Reaches (start : List Hash) : Hash → Prop
  | start {h} : h ∈ start → skip h = false → Reaches start h
  | next {h h'} : Reaches start h → h' ∈ next h → skip h' = false → Reaches start h'

/-- The walk invariant: visited hashes are distinct and reached, queued hashes come
from `start` or from a visited hash, and nothing of `start` or pushed by a visited
hash is lost. -/
structure WalkInv (start : List Hash) (s : WalkState σ) : Prop where
  nodup : s.visited.Nodup
  reached : ∀ v ∈ s.visited, Reaches next skip start v
  queued : ∀ q ∈ s.queue, q ∈ start ∨ ∃ v ∈ s.visited, q ∈ next v
  start_kept : ∀ h ∈ start, h ∈ s.visited ∨ h ∈ s.queue ∨ skip h = true
  next_kept : ∀ v ∈ s.visited, ∀ w ∈ next v, w ∈ s.visited ∨ w ∈ s.queue ∨ skip w = true

variable {next skip}

theorem walkInv_init (start : List Hash) (init : σ) :
    WalkInv next skip start ⟨start, [], init⟩ :=
  ⟨List.nodup_nil, by simp, fun q hq => .inl hq, fun h hh => .inr (.inl hh), by simp⟩

private theorem walkInv_pass {start : List Hash} {current : Hash} {queue visited : List Hash}
    {acc : σ} (hinv : WalkInv next skip start ⟨current :: queue, visited, acc⟩)
    (hc : current ∈ visited ∨ skip current = true) :
    WalkInv next skip start ⟨queue, visited, acc⟩ := by
  have kept : ∀ h, h ∈ visited ∨ h ∈ current :: queue ∨ skip h = true →
      h ∈ visited ∨ h ∈ queue ∨ skip h = true := by
    rintro h (hv | hq | hs)
    · exact .inl hv
    · rcases List.mem_cons.mp hq with rfl | hq
      · exact hc.imp_right .inr
      · exact .inr (.inl hq)
    · exact .inr (.inr hs)
  exact ⟨hinv.nodup, hinv.reached, fun q hq => hinv.queued q (List.mem_cons_of_mem _ hq),
    fun h hh => kept h (hinv.start_kept h hh), fun v hv w hw => kept w (hinv.next_kept v hv w hw)⟩

private theorem walkInv_visit {start : List Hash} {current : Hash} {queue visited : List Hash}
    {acc : σ} (hinv : WalkInv next skip start ⟨current :: queue, visited, acc⟩)
    (hc : ¬(current ∈ visited ∨ skip current = true)) :
    WalkInv next skip start ⟨queue ++ next current, visited ++ [current], visit acc current⟩ := by
  obtain ⟨hnotv, hnots⟩ := not_or.mp hc
  have hskip : skip current = false := by simpa using hnots
  have hreach : Reaches next skip start current := by
    rcases hinv.queued current (List.mem_cons_self _ _) with hs | ⟨v, hv, hn⟩
    · exact .start hs hskip
    · exact .next (hinv.reached v hv) hn hskip
  have kept : ∀ h, h ∈ visited ∨ h ∈ current :: queue ∨ skip h = true →
      h ∈ visited ++ [current] ∨ h ∈ queue ++ next current ∨ skip h = true := by
    rintro h (hv | hq | hs)
    · exact .inl (List.mem_append_left _ hv)
    · rcases List.mem_cons.mp hq with rfl | hq
      · exact .inl (List.mem_append_right _ (List.mem_singleton_self _))
      · exact .inr (.inl (List.mem_append_left _ hq))
    · exact .inr (.inr hs)
  refine ⟨?_, ?_, ?_, fun h hh => kept h (hinv.start_kept h hh), ?_⟩
  · exact hinv.nodup.append (List.nodup_singleton _) (List.disjoint_singleton.mpr hnotv)
  · intro v hv
    rcases List.mem_append.mp hv with hv | hv
    · exact hinv.reached v hv
    · rw [List.mem_singleton.mp hv]; exact hreach
  · intro q hq
    rcases List.mem_append.mp hq with hq | hq
    · exact (hinv.queued q (List.mem_cons_of_mem _ hq)).imp_right
        fun ⟨v, hv, hn⟩ => ⟨v, List.mem_append_left _ hv, hn⟩
    · exact .inr ⟨current, List.mem_append_right _ (List.mem_singleton_self _), hq⟩
  · intro v hv w hw
    rcases List.mem_append.mp hv with hv | hv
    · exact kept w (hinv.next_kept v hv w hw)
    · rw [List.mem_singleton.mp hv] at hw
      exact .inr (.inl (List.mem_append_right _ hw))

theorem walkInv_walk {start : List Hash} (fuel : Nat) (s : WalkState σ)
    (hinv : WalkInv next skip start s) : WalkInv next skip start (walk next skip visit fuel s) := by
  induction fuel generalizing s with
  | zero => exact hinv
  | succ fuel ih =>
    obtain ⟨queue, visited, acc⟩ := s
    cases queue with
    | nil => exact hinv
    | cons current queue =>
      simp only [walk]
      split
      · next hc => exact ih _ (walkInv_pass hinv hc)
      · next hc => exact ih _ (walkInv_visit visit hinv hc)

theorem WalkInv.mem_visited_iff {start : List Hash} {s : WalkState σ}
    (hinv : WalkInv next skip start s) (hq : s.queue = []) (h : Hash) :
    h ∈ s.visited ↔ Reaches next skip start h := by
  have kept : ∀ h, skip h = false → h ∈ s.visited ∨ h ∈ s.queue ∨ skip h = true → h ∈ s.visited := by
    rintro h hs (hv | hq' | hs')
    · exact hv
    · simp [hq] at hq'
    · simp [hs] at hs'
  refine ⟨hinv.reached h, fun hr => ?_⟩
  induction hr with
  | start hs hskip => exact kept _ hskip (hinv.start_kept _ hs)
  | next _ hn hskip ih => exact kept _ hskip (hinv.next_kept _ ih _ hn)

variable (next skip)

theorem walk_from {U : Finset Hash} (hU : ∀ h ∉ U, next h = []) (start : List Hash) (init : σ)
    {fuel : Nat} (hfuel : start.length + ∑ h ∈ U, (next h).length ≤ fuel) :
    (walk next skip visit fuel ⟨start, [], init⟩).visited.Nodup ∧
    (∀ h, h ∈ (walk next skip visit fuel ⟨start, [], init⟩).visited ↔
      Reaches next skip start h) ∧
    (walk next skip visit fuel ⟨start, [], init⟩).acc =
      (walk next skip visit fuel ⟨start, [], init⟩).visited.foldl visit init := by
  have hinv := walkInv_walk visit fuel _ (walkInv_init start init : WalkInv next skip start _)
  have hq := walk_queue_nil next skip visit hU fuel ⟨start, [], init⟩ (by
    simpa [pending, Finset.filter_true_of_mem] using hfuel)
  obtain ⟨new, hv, ha⟩ := walk_extends next skip visit fuel ⟨start, [], init⟩
  refine ⟨hinv.nodup, hinv.mem_visited_iff hq, ?_⟩
  rw [ha, hv]
  rfl

end Walk

end Jiopad
