import Leactor.Pool.Soundness

/-! Runs of one manager in which `aligned_alloc` may fail, from the first pool
on. `lt_alloc` moves the cursor before it looks at the end, and it has no way
to report that no new pool was made. -/
namespace Leactor.Pool

open Extent

/-- What is assumed of an answer of `aligned_alloc`: NULL, or a fresh range at
an address that no live pool has. -/
def FreshAnswer (h : PoolHeap) (size : Nat) (answer : Option Nat) : Prop :=
  ∀ base, answer = some base → h base = none ∧ FreshRange h size base

theorem freshAnswer_none (h : PoolHeap) (size : Nat) : FreshAnswer h size none := by
  rintro base ⟨⟩

theorem freshAnswer_second {h : PoolHeap} {size q base : Nat} {cur : LtMemoryPool} (hAt : h q = some cur)
    (hOnly : ∀ r, r ≠ q → h r = none) (hNe : base ≠ q) (hAligned : base % 16 = 0) (hPos : 0 < base)
    (hFits : base + size + 8 ≤ wordCount) (hApart : Apart base size q (cur.end_ - q)) :
    FreshAnswer h size (some base) := by
  rintro _ ⟨⟩
  exact ⟨hOnly base hNe, freshRange_second hAt hOnly hAligned hPos hFits hApart⟩

/-- The states and the returned blocks of a manager that was set up and then
served calls, each made in a state that meets a condition. -/
inductive Served (size count : Nat) (guard : PoolState → Prop) : PoolState → List Nat → Prop where
  | setup (m : LtMemoryPoolManager) {answer : Option Nat}
      (hFresh : FreshAnswer (fun _ => none) (poolSize size count) answer) :
      Served size count guard (ltNewMemoryPoolManager answer size count ⟨m, fun _ => none⟩) []
  | alloc {s s' : PoolState} {blocks : List Nat} {answer : Option Nat} {block : Nat}
      (prior : Served size count guard s blocks) (hGuard : guard s)
      (hFresh : Crosses s → FreshAnswer s.heap (poolSize size count) answer)
      (hAlloc : ltAlloc answer s = some (block, s')) : Served size count guard s' (blocks ++ [block])

/-- One element fits between the cursor of the tail and its end. -/
def HasRoom (s : PoolState) : Prop :=
  ∃ cur, s.heap s.manager.tail = some cur ∧ s.manager.tail + sizeofPool ≤ cur.pos ∧
    cur.pos + s.manager.oneElementSize ≤ cur.end_

/-- The call returns a block of a pool apart from the earlier ones, or NULL
with everything as it was. -/
def Reports (size : Nat) (s : PoolState) (blocks : List Nat) (answer : Option Nat) : Prop :=
  ∃ block s', ltAlloc answer s = some (block, s') ∧
    (InPool size s'.heap block ∧ (∀ b ∈ blocks, Apart b size block size) ∨ block = 0 ∧ s' = s)

variable {size count : Nat} {guard : PoolState → Prop} {s s' : PoolState} {blocks : List Nat}
  {answer : Option Nat} {block : Nat}

/-- After a call the cursor of the tail has moved, and if it passed the end
and memory was found there is a new pool. -/
theorem ltAlloc_outcome (h : ltAlloc answer s = some (block, s')) :
    ∃ cur, s.heap s.manager.tail = some cur ∧ block = cur.pos ∧
      (s' = bump s cur ∨
        Crosses s ∧ ∃ base, answer = some base ∧ s' = (ltNewMemoryPool (some base) (bump s cur)).2) := by
  obtain ⟨cur, hTail, hBlock, ⟨-, rfl⟩ | ⟨hCross, rfl⟩⟩ := ltAlloc_cases h
  · exact ⟨cur, hTail, hBlock, Or.inl rfl⟩
  · refine ⟨cur, hTail, hBlock, ?_⟩
    cases answer with
    | none => exact Or.inl rfl
    | some base => exact Or.inr ⟨⟨cur, hTail, hCross⟩, base, rfl, rfl⟩

theorem ranges_setup (m : LtMemoryPoolManager)
    (hFresh : FreshAnswer (fun _ => none) (poolSize size count) answer) :
    Ranges size count (ltNewMemoryPoolManager answer size count ⟨m, fun _ => none⟩) := by
  cases answer with
  | none => exact ⟨rfl, rfl, fun _ _ hNone => (nomatch hNone), fun _ _ _ _ hNone => (nomatch hNone)⟩
  | some base => exact ranges_of_run (.setup (hFresh base rfl).2)

theorem Ranges.served (h : Ranges size count s)
    (hFresh : Crosses s → FreshAnswer s.heap (poolSize size count) answer)
    (hAlloc : ltAlloc answer s = some (block, s')) : Ranges size count s' := by
  obtain ⟨cur, hTail, -, rfl | ⟨hCross, base, rfl, rfl⟩⟩ := ltAlloc_outcome hAlloc
  · exact h.bump hTail
  · exact (h.bump hTail).newPool ((hFresh hCross base rfl).2.bump hTail)

theorem Served.ranges (run : Served size count guard s blocks) : Ranges size count s := by
  induction run with
  | setup m hFresh => exact ranges_setup m hFresh
  | alloc _ _ hFresh hAlloc ih => exact ih.served hFresh hAlloc

theorem HasRoom.slot_fits {j : Nat} (hRoom : HasRoom s) (h : Laid size count s blocks j) :
    j * stride size + size ≤ capacity size count := by
  obtain ⟨cur, hTail, hHeader, hFits⟩ := hRoom
  obtain ⟨pool, hPool, hPos⟩ := h.tail
  obtain rfl : pool = cur := Option.some.inj (hPool.symm.trans hTail)
  rw [h.size_eq, (h.range _ _ hTail).2.1, hPos] at hFits
  unfold capacity
  unfold blockAt slot at hFits
  omega

/-- The state stays laid, and the slot before the cursor is inside the tail. -/
theorem Laid.served {j : Nat} (h : Laid size count s blocks j) (hSize : 1 ≤ size) (hRoom : HasRoom s)
    (hFresh : Crosses s → FreshAnswer s.heap (poolSize size count) answer)
    (hAlloc : ltAlloc answer s = some (block, s')) :
    ∃ j', Laid size count s' (blocks ++ [block]) j' ∧
      ∀ i, j' = i + 1 → i * stride size + size ≤ capacity size count := by
  have hSlot := hRoom.slot_fits h
  obtain ⟨cur, hTail, rfl, rfl | ⟨hCross, base, rfl, rfl⟩⟩ := ltAlloc_outcome hAlloc
  · refine ⟨j + 1, h.bump hSize hSlot hTail, fun i hi => ?_⟩
    obtain rfl : j = i := Nat.succ.inj hi
    exact hSlot
  · have hHeader : sizeofPool ≤ poolSize size count := by
      unfold capacity at hSlot
      omega
    exact ⟨0, (h.bump hSize hSlot hTail).newPool hHeader ((hFresh hCross base rfl).2.bump hTail),
      fun i hi => absurd hi (Nat.succ_ne_zero i).symm⟩

/-- As long as every call finds room, the blocks are whole slots. -/
theorem Served.laid (run : Served size count HasRoom s blocks) (hSize : 1 ≤ size)
    (hHeader : sizeofPool ≤ poolSize size count) {cur : LtMemoryPool} (hTail : s.heap s.manager.tail = some cur) :
    ∃ j, Laid size count s blocks j ∧ ∀ i, j = i + 1 → i * stride size + size ≤ capacity size count := by
  induction run generalizing cur with
  | @setup m answer hFresh =>
      cases answer with
      | none => cases hTail
      | some base => exact ⟨0, laid_setup hHeader (hFresh base rfl).2, fun i hi => absurd hi (Nat.succ_ne_zero i).symm⟩
  | alloc _ hRoom hFresh hAlloc ih =>
      have ⟨old, hOld, _⟩ := hRoom
      obtain ⟨j, hLaid, -⟩ := ih hOld
      exact hLaid.served hSize hRoom hFresh hAlloc

/-- The cursor of a new pool is never NULL. -/
theorem freshPool_pos_ne {base : Nat} (m : LtMemoryPoolManager) (hAligned : base % 16 = 0) :
    (freshPool m base).pos ≠ 0 := by
  change alignmentPtr ((base + sizeofPool) % wordCount) 8 ≠ 0
  have hPlace : (base + sizeofPool) % wordCount % 16 = 8 := by
    unfold sizeofPool wordCount
    omega
  rw [alignmentPtr_eight (by unfold wordCount at *; omega)]
  omega

theorem Served.pos_ne (run : Served size count HasRoom s blocks) (hSize : 1 ≤ size) {cur : LtMemoryPool}
    (hTail : s.heap s.manager.tail = some cur) : cur.pos ≠ 0 := by
  by_cases hHeader : sizeofPool ≤ poolSize size count
  · obtain ⟨j, hLaid, -⟩ := run.laid hSize hHeader hTail
    obtain ⟨pool, hPool, hPos⟩ := hLaid.tail
    obtain rfl : pool = cur := Option.some.inj (hPool.symm.trans hTail)
    rw [hPos]
    unfold blockAt slot sizeofPool
    omega
  · cases run with
    | @setup m answer hFresh =>
        cases answer with
        | none => cases hTail
        | some base =>
            obtain ⟨pool, hPool, hPos⟩ := newPool_base base
              (s := ⟨{ m with oneElementSize := size, elementCount := count, cur := 0 }, fun _ => none⟩)
            obtain rfl : pool = cur := Option.some.inj (hPool.symm.trans hTail)
            rw [hPos]
            exact freshPool_pos_ne _ (hFresh base rfl).2.aligned
    | alloc prior hRoom _ _ =>
        obtain ⟨old, hOld, hLow, hHigh⟩ := hRoom
        rw [(prior.ranges.range _ _ hOld).2.1] at hHigh
        omega

/-- A block whose cursor has run past the end of its pool lies in no pool, as the pools
are apart. A call that returned a block of some pool found room for it. -/
theorem HasRoom.of_inPool {j : Nat} {cur : LtMemoryPool} (h : Laid size count s blocks j) (hSize : 1 ≤ size)
    (hLast : ∀ i, j = i + 1 → i * stride size + size ≤ capacity size count)
    (hHeader : sizeofPool ≤ poolSize size count) (hTail : s.heap s.manager.tail = some cur)
    (hRanges : Ranges size count s') (hKeeps : ∃ pool, s'.heap s.manager.tail = some pool)
    (hInPool : InPool size s'.heap cur.pos) : HasRoom s := by
  obtain ⟨pool, hPool, hPos⟩ := h.tail
  obtain rfl : pool = cur := Option.some.inj (hPool.symm.trans hTail)
  obtain ⟨r, other, hOther, hLow, hHigh⟩ := hInPool
  obtain ⟨kept, hKept⟩ := hKeeps
  have hEnd := (h.range _ _ hTail).2.1
  refine ⟨pool, hTail, ?_, ?_⟩
  · rw [hPos]
    unfold blockAt slot
    omega
  rw [(hRanges.range _ _ hOther).2.1] at hHigh
  rw [h.size_eq, hEnd]
  by_cases hSame : s.manager.tail = r
  · rw [hSame]
    exact hHigh
  · -- the cursor is at most seven bytes behind the end, too few for another header
    have hNear : pool.pos ≤ s.manager.tail + poolSize size count + 7 := by
      rw [hPos]
      unfold blockAt slot
      cases j with
      | zero => omega
      | succ i =>
          have hFits := hLast i rfl
          have hStride : stride size ≤ size + 7 := by
            unfold stride
            omega
          rw [Nat.add_mul, one_mul]
          unfold capacity at hFits
          omega
    have hBehind : s.manager.tail ≤ pool.pos := by
      rw [hPos]
      unfold blockAt slot
      omega
    unfold sizeofPool at hLow
    rcases hRanges.separate _ r kept other hKept hOther hSame with hGap | hGap <;> omega

/-- A call that reports as it should has found room. -/
theorem Served.hasRoom_of_reports (run : Served size count HasRoom s blocks) (hSize : 1 ≤ size)
    (hFresh : Crosses s → FreshAnswer s.heap (poolSize size count) answer)
    (hReports : Reports size s blocks answer) : HasRoom s := by
  obtain ⟨block, s', hAlloc, hResult⟩ := hReports
  have hRanges := run.ranges.served hFresh hAlloc
  obtain ⟨cur, hTail, rfl, hNext⟩ := ltAlloc_outcome hAlloc
  rcases hResult with ⟨hInPool, -⟩ | ⟨hNull, -⟩
  · by_cases hHeader : sizeofPool ≤ poolSize size count
    · obtain ⟨j, hLaid, hLast⟩ := run.laid hSize hHeader hTail
      refine .of_inPool hLaid hSize hLast hHeader hTail hRanges ?_ hInPool
      obtain ⟨pool, hPool⟩ := bump_keeps cur hTail
      rcases hNext with rfl | ⟨-, base, -, rfl⟩
      · exact ⟨pool, hPool⟩
      · exact newPool_keeps _ hPool
    · obtain ⟨r, other, hOther, hLow, hHigh⟩ := hInPool
      rw [(hRanges.range _ _ hOther).2.1] at hHigh
      omega
  · exact absurd hNull (run.pos_ne hSize hTail)

/-- A call that finds room returns a block of its pool, whatever `aligned_alloc` answers. -/
theorem Served.reports_of_hasRoom (run : Served size count HasRoom s blocks) (hSize : 1 ≤ size)
    (hFresh : Crosses s → FreshAnswer s.heap (poolSize size count) answer) (hRoom : HasRoom s) :
    Reports size s blocks answer := by
  have ⟨cur, hTail, hLow, hHigh⟩ := hRoom
  have hHeader : sizeofPool ≤ poolSize size count := by
    rw [(run.ranges.range _ _ hTail).2.1] at hHigh
    omega
  obtain ⟨j, hLaid, -⟩ := run.laid hSize hHeader hTail
  obtain ⟨s', hAlloc⟩ : ∃ s', ltAlloc answer s = some (cur.pos, s') := by
    rw [ltAlloc, hTail]
    simp only
    split_ifs
    · exact ⟨_, rfl⟩
    · exact ⟨_, rfl⟩
  obtain ⟨j', hNext, -⟩ := hLaid.served hSize hRoom hFresh hAlloc
  have hSound := hNext.sound hSize
  refine ⟨cur.pos, s', hAlloc, Or.inl ⟨hSound.inPool _ (by simp), fun b hb => ?_⟩⟩
  exact (List.pairwise_append.mp hSound.apart).2.2 b hb _ (List.mem_singleton_self _)

/-- In a run whose calls have all found room, a call reports as it should exactly if it
finds room too. The answer of `aligned_alloc` to a roll-over is left open, and is fresh
where it is no failure. -/
theorem reports_iff_of_run (hSize : 1 ≤ size) (run : Served size count HasRoom s blocks)
    (hFresh : Crosses s → FreshAnswer s.heap (poolSize size count) answer) :
    Reports size s blocks answer ↔ HasRoom s :=
  ⟨run.hasRoom_of_reports hSize hFresh, run.reports_of_hasRoom hSize hFresh⟩

theorem Served.mono {guard' : PoolState → Prop} (run : Served size count guard s blocks)
    (h : ∀ s, guard s → guard' s) : Served size count guard' s blocks := by
  induction run with
  | setup m hFresh => exact .setup m hFresh
  | alloc _ hGuard hFresh hAlloc ih => exact .alloc ih (h _ hGuard) hFresh hAlloc

def oneElement : PoolState := ltNewMemoryPoolManager (some 16) 16 1 ⟨⟨0, 0, 0, 0, 0⟩, fun _ => none⟩

theorem oneElement_served : Served 16 1 HasRoom oneElement [] :=
  .setup _ fun base hBase => by
    cases hBase
    exact ⟨rfl, by decide, by decide, by decide, fun _ _ hNone => (nomatch hNone)⟩

theorem oneElement_hasRoom : HasRoom oneElement := ⟨_, rfl, by decide, by decide⟩

theorem oneElement_stays (h : Crosses oneElement) : False := by
  obtain ⟨cur, hCur, hOver⟩ := h
  cases hCur
  exact absurd hOver (by decide)

/-- A second element does not fit, memory runs out, and the block is returned all the same. -/
theorem not_reports_of_run :
    ¬ ∀ (size count : Nat) (s : PoolState) (blocks : List Nat) (answer : Option Nat), 1 ≤ size →
      Served size count (fun _ => True) s blocks →
      (Crosses s → FreshAnswer s.heap (poolSize size count) answer) → Reports size s blocks answer := by
  intro hClaim
  have run : Served 16 1 HasRoom _ [56] :=
    .alloc oneElement_served oneElement_hasRoom (fun h => (oneElement_stays h).elim)
      (rfl : ltAlloc none oneElement = some (56, _))
  obtain ⟨cur, hTail, -, hFits⟩ := run.hasRoom_of_reports (by decide) (fun _ => freshAnswer_none _ _)
    (hClaim 16 1 _ _ none (by decide) (run.mono fun _ _ => trivial) fun _ => freshAnswer_none _ _)
  cases hTail
  exact absurd hFits (by decide)

/-- One-byte elements, two to a pool: the second call rolls over to address 96, and
the fourth one still returns its block when memory has run out. -/
theorem reports_iff_of_run_rolledOver :
    ∃ s, Served 1 1 HasRoom s [56, 64, 136] ∧ Crosses s ∧ Reports 1 s [56, 64, 136] none := by
  have run₀ : Served 1 1 HasRoom (ltNewMemoryPoolManager (some 16) 1 1 ⟨⟨0, 0, 0, 0, 0⟩, fun _ => none⟩) [] :=
    .setup _ fun base hBase => by
      cases hBase
      exact ⟨rfl, by decide, by decide, by decide, fun _ _ hNone => nomatch hNone⟩
  have run₁ : Served 1 1 HasRoom _ [56] := .alloc run₀ ⟨_, rfl, by decide, by decide⟩
    (fun ⟨_, hTail, hOver⟩ => by
      cases hTail
      exact absurd hOver (by decide))
    (rfl : ltAlloc none _ = some (56, _))
  have run₂ : Served 1 1 HasRoom _ [56, 64] := .alloc run₁ ⟨_, rfl, by decide, by decide⟩
    (fun _ => freshAnswer_second (q := 16) rfl
      (fun q hq => by simp [bump, ltNewMemoryPoolManager, ltNewMemoryPool, PoolHeap.write, hq])
      (by decide) (by decide) (by decide) (by decide) (by decide))
    (rfl : ltAlloc (some 96) _ = some (64, _))
  have run₃ : Served 1 1 HasRoom _ [56, 64, 136] := .alloc run₂ ⟨_, rfl, by decide, by decide⟩
    (fun _ => freshAnswer_none _ _) (rfl : ltAlloc none _ = some (136, _))
  exact ⟨_, run₃, ⟨_, rfl, by decide⟩, (reports_iff_of_run (by decide) run₃ fun _ => freshAnswer_none _ _).mpr
    ⟨_, rfl, by decide, by decide⟩⟩

end Leactor.Pool
