import Leactor.Pool.Destroy

/-! How many pools a manager has behind a run of `lt_alloc` calls. A pool is left behind
when one block more than its capacity holds has been taken from it, so that the number of
calls says how many pools there are and how far the last one is served. -/
namespace Leactor.Pool

open Extent

/-- The blocks taken from a pool when the next one is made. -/
def perPool (size count : Nat) : Nat := capacity size count / stride size + 1

/-- No pool is so close to the end of the address space that the cursor behind its last
block wraps. -/
def Below (size count : Nat) (s : PoolState) : Prop :=
  ∀ q pool, s.heap q = some pool → q + poolSize size count + size + 8 ≤ wordCount

/-- The pools `qs` behind `n` calls: the calls were served pool by pool. -/
structure Filled (size count : Nat) (s : PoolState) (qs : List Nat) (n : Nat) : Prop
    extends Chained s qs, Ranges size count s where
  pools : qs.length = n / perPool size count + 1
  cursor : ∃ pool, s.heap s.manager.tail = some pool ∧
    pool.pos = blockAt size s.manager.tail (n % perPool size count)

theorem perPool_pos (size count : Nat) : 0 < perPool size count := Nat.succ_pos _

/-- One call more in the same pool. -/
theorem div_mod_stay {n k : Nat} (h : n % k + 1 < k) : (n + 1) / k = n / k ∧ (n + 1) % k = n % k + 1 := by
  refine (Nat.div_mod_unique (by omega)).mpr ⟨?_, h⟩
  have hSplit := Nat.mod_add_div n k
  omega

/-- The call behind which a pool is full. -/
theorem div_mod_full {n k : Nat} (h : n % k + 1 = k) : (n + 1) / k = n / k + 1 ∧ (n + 1) % k = 0 := by
  refine (Nat.div_mod_unique (by omega)).mpr ⟨?_, by omega⟩
  have hSplit := Nat.mod_add_div n k
  rw [Nat.mul_add, Nat.mul_one, Nat.zero_add]
  omega

section Run

variable {size count n block : Nat} {s s' : PoolState} {qs blocks : List Nat}

theorem Filled.setup {m : LtMemoryPoolManager} {base : Nat} (hHeader : sizeofPool ≤ poolSize size count)
    (hFresh : FreshRange (fun _ => none) (poolSize size count) base) :
    Filled size count (ltNewMemoryPoolManager (some base) size count ⟨m, fun _ => none⟩) [base] 0 := by
  have hLaid := laid_setup (m := m) hHeader hFresh
  refine ⟨⟨⟨rfl, _, PoolHeap.write_same _ _ _, rfl⟩, List.nodup_singleton _, rfl, rfl, ?_⟩, hLaid.toRanges, ?_, ?_⟩
  · exact PoolHeap.write_other _ hFresh.nonnull.ne
  · rw [Nat.zero_div]
    rfl
  · rw [Nat.zero_mod]
    exact hLaid.tail

/-- One call: the pool goes on to serve, or it is full and a new one stands behind it. -/
theorem Filled.alloc {base : Nat} (h : Filled size count s qs n) (hSize : 1 ≤ size)
    (hHeader : sizeofPool ≤ poolSize size count) (hBelow : Below size count s)
    (hFresh : Crosses s → FreshRange s.heap (poolSize size count) base)
    (hAlloc : ltAlloc (some base) s = some (block, s')) : ∃ qs', Filled size count s' qs' (n + 1) := by
  obtain ⟨cur, hTail, -, hCases⟩ := ltAlloc_cases hAlloc
  obtain ⟨pool, hPool, hPos⟩ := h.cursor
  obtain rfl : pool = cur := Option.some.inj (hPool.symm.trans hTail)
  obtain ⟨hAligned, hEnd, -⟩ := h.range _ _ hTail
  have hLess : n % perPool size count < perPool size count := Nat.mod_lt _ (perPool_pos size count)
  have hServed : n % perPool size count * stride size ≤ capacity size count :=
    (Nat.le_div_iff_mul_le (stride_pos hSize)).mp (Nat.le_of_lt_succ hLess)
  have hSplit : sizeofPool + capacity size count = poolSize size count := by
    unfold capacity
    omega
  have hAdvance : advance s.manager pool = blockAt size s.manager.tail (n % perPool size count + 1) := by
    refine advance_next h.size_eq hAligned hPos ?_
    have hFar := hBelow _ _ hTail
    unfold blockAt slot
    omega
  -- the roll-over test asks whether the pool has served one block more than it holds
  have hTest : advance s.manager pool ≤ pool.end_ ↔ n % perPool size count + 1 < perPool size count := by
    rw [hAdvance, hEnd, perPool, Nat.add_lt_add_iff_right, Nat.lt_iff_add_one_le,
      Nat.le_div_iff_mul_le (stride_pos hSize)]
    unfold blockAt slot
    omega
  have hBump := h.toChained.bump hTail
  have hRanges := h.toRanges.bump hTail
  rcases hCases with ⟨hStay, rfl⟩ | ⟨hCross, rfl⟩
  · obtain ⟨hDiv, hMod⟩ := div_mod_stay (hTest.mp hStay)
    refine ⟨qs, hBump, hRanges, ?_, ?_⟩
    · rw [hDiv, h.pools]
    · rw [hMod]
      exact ⟨_, PoolHeap.write_same _ _ _, hAdvance⟩
  · have hFull : n % perPool size count + 1 = perPool size count := by
      have hNot := mt hTest.mpr (not_le.mpr hCross)
      omega
    obtain ⟨hDiv, hMod⟩ := div_mod_full hFull
    have hNew := hFresh ⟨pool, hTail, hCross⟩
    have hFits := hNew.fits
    have hMoved := hNew.bump hTail
    refine ⟨qs ++ [base], hBump.newPool ⟨_, PoolHeap.write_same _ _ _⟩ (hRanges.unused hHeader hMoved) hNew.nonnull,
      hRanges.newPool hMoved, ?_, ?_⟩
    · rw [List.length_append, h.pools, hDiv]
      rfl
    · rw [hMod]
      obtain ⟨new, hFound, hStart⟩ := newPool_base base (s := Pool.bump s pool)
      exact ⟨new, hFound, hStart.trans (freshPool_pos hNew.aligned (by omega))⟩

/-- A pool once made stays in memory, so that a state has no pool that a later one has not. -/
theorem Below.of_alloc {base : Nat} (h : Below size count s') (hAlloc : ltAlloc (some base) s = some (block, s')) :
    Below size count s := by
  intro q pool hPool
  obtain ⟨pool', hPool'⟩ := ltAlloc_keeps hAlloc hPool
  exact h q pool' hPool'

/-- The pools of a run are those that its number of calls asks for. -/
theorem AllocRun.filled (run : AllocRun size count s blocks) (hSize : 1 ≤ size)
    (hHeader : sizeofPool ≤ poolSize size count) (hBelow : Below size count s) :
    ∃ qs, Filled size count s qs blocks.length := by
  induction run with
  | setup hFresh => exact ⟨_, .setup hHeader hFresh⟩
  | alloc base prior hFresh hAlloc ih =>
      have hBefore := hBelow.of_alloc hAlloc
      obtain ⟨qs, hFilled⟩ := ih hBefore
      rw [List.length_append]
      exact hFilled.alloc hSize hHeader hBefore hFresh hAlloc

/-- `lt_destroy_memory_pool` comes to its end exactly on a list of one pool. -/
theorem Chained.destroys_iff (h : Chained s qs) (hNe : qs ≠ []) :
    (∃ freed, LtDestroyMemoryPool s freed) ↔ qs.length = 1 := by
  obtain ⟨q, rest, rfl⟩ := List.exists_cons_of_ne_nil hNe
  obtain ⟨rfl, pool, hPool, hRest⟩ := h.linked
  constructor
  · rintro ⟨freed, hFreed⟩
    obtain ⟨pool', hPool', hNext, -⟩ := ltDestroyMemoryPool_next hFreed
    obtain rfl : pool = pool' := Option.some.inj (hPool.symm.trans hPool')
    cases rest with
    | nil => rfl
    | cons r rest =>
        obtain ⟨hHere, other, hOther, -⟩ := hRest
        rw [← hHere, hNext, h.null] at hOther
        cases hOther
  · intro hOne
    obtain rfl : rest = [] := List.length_eq_zero_iff.mp (Nat.succ.inj hOne)
    exact ⟨_, Loop.returns_of_exit (by
      simp only [destroyTurn, List.not_mem_nil, if_false, hPool, if_pos (show pool.next = 0 from hRest)]; rfl)⟩

/-- Behind a run the pools can be destroyed as long as the first one holds every block. -/
theorem destroys_iff_of_run (run : AllocRun size count s blocks) (hSize : 1 ≤ size)
    (hHeader : sizeofPool ≤ poolSize size count) (hBelow : Below size count s) :
    (∃ freed, LtDestroyMemoryPool s freed) ↔ blocks.length ≤ capacity size count / stride size := by
  obtain ⟨qs, hFilled⟩ := run.filled hSize hHeader hBelow
  have hPools := hFilled.pools
  have hNe : qs ≠ [] := by
    rintro rfl
    cases hPools
  rw [hFilled.toChained.destroys_iff hNe, hPools, Nat.add_eq_right,
    Nat.div_eq_zero_iff_lt (perPool_pos size count), perPool, Nat.lt_succ_iff]

end Run

end Leactor.Pool
