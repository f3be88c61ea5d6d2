import Leactor.Library.Loop
import Leactor.Pool.Failure
import Leactor.Pool.Twins

/-! `lt_destroy_memory_pool`. A read of a pool that is freed, and a read through
NULL, is a fault. -/
namespace Leactor.Pool

open Loop Twins

/-- One turn of the loop of `lt_destroy_memory_pool`, which never moves on to
`next`: the pool at hand and the pools freed so far. -/
def destroyTurn (heap : PoolHeap) : Nat × List Nat → Turn (Nat × List Nat) (Option (List Nat))
  | (pool, freed) =>
      if pool ∈ freed then .exit none
      else
        match heap pool with
        | none => .exit none
        | some p => if p.next = 0 then .exit (some (freed ++ [pool])) else .again (pool, freed ++ [pool])

/-- `lt_destroy_memory_pool` ends with these calls of `free`. -/
def LtDestroyMemoryPool (s : PoolState) (freed : List Nat) : Prop :=
  Returns (destroyTurn s.heap) (s.manager.head, []) (some freed)

def DestroysEach (s : PoolState) : Prop :=
  ∃ qs freed, Twins.Linked s.heap s.manager.head qs ∧ LtDestroyMemoryPool s freed ∧ freed.Perm qs

def Single (s : PoolState) : Prop := s.manager.head ≠ 0 ∧ s.manager.head = s.manager.tail

structure Chained (s : PoolState) (qs : List Nat) : Prop where
  linked : Twins.Linked s.heap s.manager.head qs
  nodup : qs.Nodup
  tail : s.manager.tail = qs.getLastD 0
  cur : s.manager.cur = s.manager.tail
  null : s.heap 0 = none

theorem linked_mem {heap : PoolHeap} {p q : Nat} {qs : List Nat} (h : Twins.Linked heap p qs) (hq : q ∈ qs) :
    ∃ pool, heap q = some pool := by
  induction qs generalizing p with
  | nil => exact absurd hq List.not_mem_nil
  | cons r qs ih =>
      obtain ⟨rfl, pool, hPool, hRest⟩ := h
      rcases List.mem_cons.mp hq with rfl | hMem
      · exact ⟨pool, hPool⟩
      · exact ih hRest hMem

/-- A moved cursor changes no link. -/
theorem linked_move {heap : PoolHeap} {p t pos : Nat} {cur : LtMemoryPool} {qs : List Nat}
    (h : Twins.Linked heap p qs) (hCur : heap t = some cur) : Twins.Linked (heap.write t { cur with pos := pos }) p qs := by
  induction qs generalizing p with
  | nil => exact h
  | cons q qs ih =>
      obtain ⟨rfl, pool, hPool, hRest⟩ := h
      by_cases hSame : p = t
      · subst hSame
        obtain rfl : pool = cur := Option.some.inj (hPool.symm.trans hCur)
        exact ⟨rfl, _, PoolHeap.write_same _ _ _, ih hRest⟩
      · exact ⟨rfl, pool, by rwa [PoolHeap.write_other _ hSame], ih hRest⟩

/-- A new pool is linked behind the last one. No pool was at its address, so that the
links of the others stay. -/
theorem linked_extend {heap : PoolHeap} {p base : Nat} {new : LtMemoryPool} {qs : List Nat} (h : Twins.Linked heap p qs)
    (hNodup : qs.Nodup) (hNe : qs ≠ []) (hUnused : heap base = none) (hNull : new.next = 0) :
    Twins.Linked ((heap.write base new).link (qs.getLastD 0) base) p (qs ++ [base]) := by
  induction qs generalizing p with
  | nil => exact absurd rfl hNe
  | cons q qs ih =>
      obtain ⟨rfl, pool, hPool, hRest⟩ := h
      have hOther : p ≠ base := by
        rintro rfl
        rw [hUnused] at hPool
        cases hPool
      cases qs with
      | nil =>
          have hLast : [p].getLastD 0 = p := rfl
          rw [hLast]
          refine ⟨rfl, { pool with next := base }, ?_, rfl, new, ?_, hNull⟩
          · rw [PoolHeap.link_same, PoolHeap.write_other _ hOther, hPool]
            rfl
          · rw [PoolHeap.link_other _ hOther.symm, PoolHeap.write_same]
      | cons q' qs =>
          have hLast : (p :: q' :: qs).getLastD 0 = (q' :: qs).getLastD 0 := rfl
          have hNot : p ≠ (q' :: qs).getLastD 0 := by
            intro hEq
            refine (List.nodup_cons.mp hNodup).1 ?_
            rw [hEq, List.getLastD_cons]
            exact List.getLastD_mem_cons
          rw [hLast]
          refine ⟨rfl, pool, ?_, ih hRest (List.nodup_cons.mp hNodup).2 (by simp)⟩
          rw [PoolHeap.link_other _ hNot, PoolHeap.write_other _ hOther, hPool]

section Runs

variable {size count : Nat} {guard : PoolState → Prop} {s s' : PoolState} {blocks : List Nat}
  {answer : Option Nat} {block : Nat} {qs : List Nat}

theorem Chained.bump {cur : LtMemoryPool} (h : Chained s qs) (hTail : s.heap s.manager.tail = some cur) :
    Chained (bump s cur) qs where
  linked := linked_move h.linked hTail
  nodup := h.nodup
  tail := h.tail
  cur := h.cur
  null := by
    have hNe : 0 ≠ s.manager.tail := by
      intro hNull
      rw [← hNull, h.null] at hTail
      cases hTail
    exact (PoolHeap.write_other _ hNe).trans h.null

theorem Chained.newPool {base : Nat} (h : Chained s qs) (hTail : ∃ cur, s.heap s.manager.tail = some cur)
    (hUnused : s.heap base = none) (hPos : 0 < base) :
    Chained (ltNewMemoryPool (some base) s).2 (qs ++ [base]) := by
  obtain ⟨cur, hCur⟩ := hTail
  have hNe : s.manager.tail ≠ 0 := by
    intro hNull
    rw [hNull, h.null] at hCur
    cases hCur
  have hSome : qs ≠ [] := by
    rintro rfl
    exact hNe h.tail
  have hHeap : (ltNewMemoryPool (some base) s).2.heap =
      (s.heap.write base (freshPool s.manager base)).link (qs.getLastD 0) base := by
    rw [← h.tail]
    exact if_pos (by rwa [h.cur])
  refine ⟨?_, ?_, ?_, rfl, ?_⟩
  · rw [hHeap]
    exact linked_extend h.linked h.nodup hSome hUnused rfl
  · refine List.nodup_append.mpr ⟨h.nodup, List.nodup_singleton _, fun q hq r hr => ?_⟩
    rw [List.mem_singleton.mp hr]
    rintro rfl
    obtain ⟨pool, hPool⟩ := linked_mem h.linked hq
    rw [hUnused] at hPool
    cases hPool
  · rw [newPool_tail, List.getLastD_eq_getLast?, List.getLast?_concat]
    rfl
  · rw [hHeap, PoolHeap.link_other _ (by rw [← h.tail]; exact hNe.symm), PoolHeap.write_other _ hPos.ne, h.null]

/-- The list at `head` holds every pool made, in order. -/
theorem Served.chained (run : Served size count guard s blocks) : ∃ qs, Chained s qs := by
  induction run with
  | @setup m answer hFresh =>
      cases answer with
      | none => exact ⟨[], rfl, List.nodup_nil, rfl, rfl, rfl⟩
      | some base =>
          have hPos := (hFresh base rfl).2.nonnull
          refine ⟨[base], ⟨rfl, _, PoolHeap.write_same _ _ _, rfl⟩, List.nodup_singleton _, rfl, rfl, ?_⟩
          exact PoolHeap.write_other _ hPos.ne
  | alloc _ _ hFresh hAlloc ih =>
      obtain ⟨qs, hChained⟩ := ih
      obtain ⟨cur, hTail, -, rfl | ⟨hCross, base, rfl, rfl⟩⟩ := ltAlloc_outcome hAlloc
      · exact ⟨qs, hChained.bump hTail⟩
      · obtain ⟨hUnused, hRange⟩ := hFresh hCross base rfl
        have hMoved : base ≠ _ := fun hSame => by
          rw [hSame, hTail] at hUnused
          cases hUnused
        exact ⟨qs ++ [base], (hChained.bump hTail).newPool ⟨_, PoolHeap.write_same _ _ _⟩
          ((PoolHeap.write_other _ hMoved).trans hUnused) hRange.nonnull⟩

/-- The walk never leaves the first pool, so that it frees a list of one pool only. -/
theorem ltDestroyMemoryPool_next {freed : List Nat} (h : LtDestroyMemoryPool s freed) :
    ∃ pool, s.heap s.manager.head = some pool ∧ pool.next = 0 ∧ freed = [s.manager.head] := by
  unfold LtDestroyMemoryPool at h
  cases hHead : s.heap s.manager.head with
  | none =>
      have hFault : Returns (destroyTurn s.heap) (s.manager.head, []) none :=
        returns_of_exit (by simp [destroyTurn, hHead])
      cases h.unique hFault
  | some pool =>
      by_cases hNext : pool.next = 0
      · have hDone : Returns (destroyTurn s.heap) (s.manager.head, []) (some [s.manager.head]) :=
          returns_of_exit (by simp [destroyTurn, hHead, hNext])
        exact ⟨pool, rfl, hNext, Option.some.inj (h.unique hDone)⟩
      · have hTurn : destroyTurn s.heap (s.manager.head, []) = .again (s.manager.head, [s.manager.head]) := by
          simp [destroyTurn, hHead, hNext]
        have hFault : Returns (destroyTurn s.heap) (s.manager.head, [s.manager.head]) none :=
          returns_of_exit (by simp [destroyTurn])
        cases ((returns_again_iff hTurn).mp h).unique hFault

theorem Chained.destroysEach_iff (h : Chained s qs) : DestroysEach s ↔ Single s := by
  have hLinked := h.linked
  constructor
  · rintro ⟨-, freed, -, hDestroy, -⟩
    obtain ⟨pool, hPool, hNext, -⟩ := ltDestroyMemoryPool_next hDestroy
    have hNe : s.manager.head ≠ 0 := by
      intro hNull
      rw [hNull, h.null] at hPool
      cases hPool
    refine ⟨hNe, ?_⟩
    match qs, hLinked, h.tail with
    | [], hLinked, _ => exact absurd hLinked hNe
    | [q], ⟨hSame, _⟩, hTail => exact hSame.trans hTail.symm
    | q :: r :: _, ⟨hSame, pool', hPool', hRest, pool'', hPool'', _⟩, _ =>
        rw [hSame] at hPool
        obtain rfl : pool = pool' := Option.some.inj (hPool.symm.trans hPool')
        rw [← hRest, hNext, h.null] at hPool''
        cases hPool''
  · rintro ⟨hNe, hSame⟩
    match qs, hLinked, h.tail, h.nodup with
    | [], hLinked, _, _ => exact absurd hLinked hNe
    | [q], ⟨hHead, pool, hPool, hNext⟩, _, _ =>
        refine ⟨[q], [q], ⟨hHead, pool, hPool, hNext⟩, ?_, List.Perm.refl _⟩
        exact returns_of_exit (by simp [destroyTurn, hHead, hPool, show pool.next = 0 from hNext])
    | q :: r :: rest, ⟨hHead, _⟩, hTail, hNodup =>
        refine absurd ?_ (List.nodup_cons.mp hNodup).1
        rw [← hHead, hSame, hTail, List.getLastD_cons, List.getLastD_cons]
        exact List.getLastD_mem_cons

/-- After any calls, with `aligned_alloc` failing where it may, every pool of the
manager is freed once exactly if there is one pool. With more of them the walk stays at
the first one and frees it again. -/
theorem destroysEach_iff_of_run (run : Served size count guard s blocks) : DestroysEach s ↔ Single s := by
  obtain ⟨qs, hChained⟩ := run.chained
  exact hChained.destroysEach_iff

/-- A manager that has rolled over once: the walk stays at its first pool. -/
theorem not_destroysEach_of_run :
    ¬ ∀ (size count : Nat) (s : PoolState) (blocks : List Nat), 1 ≤ size →
      Served size count (fun _ => True) s blocks → DestroysEach s := by
  intro hClaim
  have run₁ : Served 16 1 (fun _ => True) _ [56] :=
    .alloc (oneElement_served.mono fun _ _ => trivial) trivial (fun h => (oneElement_stays h).elim)
      (rfl : ltAlloc none oneElement = some (56, _))
  have run₂ : Served 16 1 (fun _ => True) _ [56, 72] :=
    .alloc run₁ trivial (fun _ => freshAnswer_second (q := 16) rfl
      (fun q hq => by simp [bump, oneElement, ltNewMemoryPoolManager, ltNewMemoryPool, PoolHeap.write, hq])
      (by decide) (by decide) (by decide) (by decide) (by decide))
      (rfl : ltAlloc (some 96) _ = some (72, _))
  obtain ⟨qs, hChained⟩ := run₂.chained
  exact absurd (hChained.destroysEach_iff.mp (hClaim 16 1 _ _ (by decide) run₂)).2 (by decide)

/-- Three calls on a pool for two: memory has run out at the third, and the one pool is freed. -/
theorem destroysEach_iff_of_run_threeCalls :
    ∃ s, Served 16 2 (fun _ => True) s [56, 72, 88] ∧ (DestroysEach s ↔ Single s) ∧ Single s := by
  have run₀ : Served 16 2 (fun _ => True)
      (ltNewMemoryPoolManager (some 16) 16 2 ⟨⟨0, 0, 0, 0, 0⟩, fun _ => none⟩) [] :=
    .setup _ fun base hBase => by
      cases hBase
      exact ⟨rfl, by decide, by decide, by decide, fun _ _ hNone => nomatch hNone⟩
  have run₁ : Served 16 2 (fun _ => True) _ [56] :=
    .alloc run₀ trivial (fun _ => freshAnswer_none _ _) (rfl : ltAlloc none _ = some (56, _))
  have run₂ : Served 16 2 (fun _ => True) _ [56, 72] :=
    .alloc run₁ trivial (fun _ => freshAnswer_none _ _) (rfl : ltAlloc none _ = some (72, _))
  have run₃ : Served 16 2 (fun _ => True) _ [56, 72, 88] :=
    .alloc run₂ trivial (fun _ => freshAnswer_none _ _) (rfl : ltAlloc none _ = some (88, _))
  exact ⟨_, run₃, destroysEach_iff_of_run run₃, by decide, rfl⟩

end Runs

end Leactor.Pool
