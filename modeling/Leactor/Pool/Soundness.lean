import Leactor.Pool.Basic

/-! What `lt_alloc` hands out over whole runs of one manager. The blocks of a
pool are the slots of width `stride` behind its header. A roll-over returns
one more slot of the full pool, so everything depends on whether the bytes
left behind the last whole slot still hold one element. -/
namespace Leactor.Pool

open Extent

/-- An element rounded up to eight bytes, the distance between two blocks. -/
def stride (size : Nat) : Nat := (size + 7) / 8 * 8

def capacity (size count : Nat) : Nat := poolSize size count - sizeofPool

/-- What is assumed of the range `[base, base + size)` that `aligned_alloc`
returns: aligned to 16, not NULL, separate from the pools in memory, and not
in the last bytes of the address space, where rounding up would wrap. -/
structure FreshRange (h : PoolHeap) (size base : Nat) : Prop where
  aligned : base % 16 = 0
  nonnull : 0 < base
  fits : base + size + 8 ≤ wordCount
  apart : ∀ q pool, h q = some pool → Apart base size q (pool.end_ - q)

/-- The states and the returned blocks of a manager that was just set up and
then served any number of `lt_alloc` calls, with `aligned_alloc` succeeding. -/
inductive AllocRun (size count : Nat) : PoolState → List Nat → Prop where
  | setup {m : LtMemoryPoolManager} {base : Nat}
      (hFresh : FreshRange (fun _ => none) (poolSize size count) base) :
      AllocRun size count
        (ltNewMemoryPoolManager (some base) size count ⟨m, fun _ => none⟩) []
  | alloc {s s' : PoolState} {blocks : List Nat} (base : Nat) {block : Nat}
      (prior : AllocRun size count s blocks)
      (hFresh : Crosses s → FreshRange s.heap (poolSize size count) base)
      (hAlloc : ltAlloc (some base) s = some (block, s')) :
      AllocRun size count s' (blocks ++ [block])

/-- The block `[b, b + size)` lies in a pool, behind its header and not past its end. -/
def InPool (size : Nat) (h : PoolHeap) (b : Nat) : Prop :=
  ∃ q pool, h q = some pool ∧ q + sizeofPool ≤ b ∧ b + size ≤ pool.end_

/-- The promise of an allocator about all the blocks it has returned. -/
structure BlocksSound (size : Nat) (h : PoolHeap) (blocks : List Nat) : Prop where
  aligned : ∀ b ∈ blocks, b % 8 = 0
  inPool : ∀ b ∈ blocks, InPool size h b
  apart : blocks.Pairwise fun b c => Apart b size c size

structure Ranges (size count : Nat) (s : PoolState) : Prop where
  size_eq : s.manager.oneElementSize = size
  count_eq : s.manager.elementCount = count
  range : ∀ q pool, s.heap q = some pool →
    q % 16 = 0 ∧ pool.end_ = q + poolSize size count ∧ q + poolSize size count + 8 ≤ wordCount
  separate : ∀ q r pool pool', s.heap q = some pool → s.heap r = some pool' → q ≠ r →
    Apart q (poolSize size count) r (poolSize size count)

abbrev blockAt (size q i : Nat) : Nat := slot (q + sizeofPool) (stride size) i

/-- All blocks are whole slots of pools, and the tail pool has served `j` of its slots. -/
structure Laid (size count : Nat) (s : PoolState) (blocks : List Nat) (j : Nat) : Prop
    extends Ranges size count s where
  tail : ∃ pool, s.heap s.manager.tail = some pool ∧ pool.pos = blockAt size s.manager.tail j
  block : ∀ b ∈ blocks, ∃ q pool i, s.heap q = some pool ∧ b = blockAt size q i ∧
    i * stride size + size ≤ capacity size count ∧ (q = s.manager.tail → i < j)
  apart : blocks.Pairwise fun b c => Apart b size c size

theorem size_le_stride (size : Nat) : size ≤ stride size := by
  unfold stride
  omega

theorem stride_pos {size : Nat} (h : 1 ≤ size) : 0 < stride size :=
  h.trans (size_le_stride size)

/-- The cursor moves from slot `j` to slot `j + 1`, unless it wraps. -/
theorem advance_next {size q j : Nat} {m : LtMemoryPoolManager} {pool : LtMemoryPool}
    (hSize : m.oneElementSize = size) (hAligned : q % 16 = 0) (hPos : pool.pos = blockAt size q j)
    (hSum : blockAt size q j + size + 8 ≤ wordCount) : advance m pool = blockAt size q (j + 1) := by
  have hStride : stride size = (size + (8 - 1)) / 8 * 8 := rfl
  rw [advance, hPos, hSize, Nat.mod_eq_of_lt (by omega), alignmentPtr_eight (by omega),
    blockAt, blockAt, hStride]
  exact roundUp_slot (by omega) (by unfold sizeofPool; omega)

/-- As long as slot `j` is inside the range the cursor does not wrap. -/
theorem advance_slot {size count q j : Nat} {m : LtMemoryPoolManager} {pool : LtMemoryPool}
    (hSize : m.oneElementSize = size) (hAligned : q % 16 = 0)
    (hFits : q + poolSize size count + 8 ≤ wordCount) (hPos : pool.pos = blockAt size q j)
    (hSlot : j * stride size + size ≤ capacity size count) (hNonempty : 1 ≤ size) :
    advance m pool = blockAt size q (j + 1) := by
  refine advance_next hSize hAligned hPos ?_
  unfold capacity at hSlot
  unfold blockAt slot
  omega

/-- The two outcomes of `lt_alloc`: the cursor stays in the tail pool, or it
passed the end and a pool is added. The block is the old cursor in both. -/
theorem ltAlloc_cases {answer : Option Nat} {s s' : PoolState} {block : Nat}
    (h : ltAlloc answer s = some (block, s')) :
    ∃ cur, s.heap s.manager.tail = some cur ∧ block = cur.pos ∧
      ((advance s.manager cur ≤ cur.end_ ∧ s' = bump s cur) ∨
        (advance s.manager cur > cur.end_ ∧ s' = (ltNewMemoryPool answer (bump s cur)).2)) := by
  unfold ltAlloc at h
  cases hTail : s.heap s.manager.tail with
  | none => simp [hTail] at h
  | some cur =>
      refine ⟨cur, rfl, ?_⟩
      simp only [hTail] at h
      split_ifs at h with hCross
      · cases h
        exact ⟨rfl, Or.inr ⟨hCross, rfl⟩⟩
      · cases h
        exact ⟨rfl, Or.inl ⟨Nat.le_of_not_lt hCross, rfl⟩⟩

/-- Every pool in memory after a roll-over is the new one or an old one with
the same cursor and end. -/
theorem lookup_of_newPool {base q : Nat} {s : PoolState} {pool : LtMemoryPool}
    (h : (ltNewMemoryPool (some base) s).2.heap q = some pool) :
    (q = base ∧ pool.pos = (freshPool s.manager base).pos ∧
        pool.end_ = (freshPool s.manager base).end_) ∨
      (q ≠ base ∧ ∃ old, s.heap q = some old ∧ pool.pos = old.pos ∧ pool.end_ = old.end_) := by
  simp only [ltNewMemoryPool] at h
  by_cases hq : q = base
  · subst hq
    refine Or.inl ⟨rfl, ?_⟩
    split_ifs at h
    · by_cases hTail : q = s.manager.tail
      · subst hTail
        simp only [PoolHeap.link_same, PoolHeap.write_same, Option.map_some, Option.some.injEq] at h
        subst h
        exact ⟨rfl, rfl⟩
      · rw [PoolHeap.link_other _ hTail, PoolHeap.write_same] at h
        cases h
        exact ⟨rfl, rfl⟩
    · rw [PoolHeap.write_same] at h
      cases h
      exact ⟨rfl, rfl⟩
  · refine Or.inr ⟨hq, ?_⟩
    split_ifs at h
    · by_cases hTail : q = s.manager.tail
      · subst hTail
        rw [PoolHeap.link_same, PoolHeap.write_other _ hq, Option.map_eq_some_iff] at h
        obtain ⟨old, hOld, rfl⟩ := h
        exact ⟨old, hOld, rfl, rfl⟩
      · rw [PoolHeap.link_other _ hTail, PoolHeap.write_other _ hq] at h
        exact ⟨pool, h, rfl, rfl⟩
    · rw [PoolHeap.write_other _ hq] at h
      exact ⟨pool, h, rfl, rfl⟩

/-- A roll-over keeps every pool, up to its link. -/
theorem newPool_keeps (base : Nat) {q : Nat} {s : PoolState} {old : LtMemoryPool}
    (h : s.heap q = some old) :
    ∃ pool, (ltNewMemoryPool (some base) s).2.heap q = some pool := by
  cases hNew : (ltNewMemoryPool (some base) s).2.heap q with
  | some pool => exact ⟨pool, rfl⟩
  | none =>
      exfalso
      simp only [ltNewMemoryPool] at hNew
      by_cases hq : q = base <;> by_cases hTail : q = s.manager.tail <;>
        split_ifs at hNew <;>
        simp_all [PoolHeap.link, PoolHeap.write]

theorem newPool_tail {base : Nat} {s : PoolState} :
    (ltNewMemoryPool (some base) s).2.manager.tail = base := rfl

theorem newPool_base (base : Nat) {s : PoolState} :
    ∃ pool, (ltNewMemoryPool (some base) s).2.heap base = some pool ∧
      pool.pos = (freshPool s.manager base).pos := by
  cases hNew : (ltNewMemoryPool (some base) s).2.heap base with
  | some pool =>
      refine ⟨pool, rfl, ?_⟩
      rcases lookup_of_newPool hNew with ⟨-, hPos, -⟩ | ⟨hNe, -⟩
      · exact hPos
      · exact (hNe rfl).elim
  | none =>
      exfalso
      simp only [ltNewMemoryPool] at hNew
      by_cases hTail : base = s.manager.tail <;> split_ifs at hNew <;>
        simp_all [PoolHeap.link, PoolHeap.write]

/-- The cursor of a fresh pool is its first slot when the header fits. -/
theorem freshPool_pos {size base : Nat} {m : LtMemoryPoolManager}
    (hAligned : base % 16 = 0) (hFits : base + sizeofPool + 8 ≤ wordCount) :
    (freshPool m base).pos = blockAt size base 0 := by
  change alignmentPtr ((base + sizeofPool) % wordCount) 8 = _
  rw [Nat.mod_eq_of_lt (by omega), alignmentPtr_eight (by omega)]
  unfold blockAt slot sizeofPool at *
  omega

theorem freshPool_end {size count base : Nat} {m : LtMemoryPoolManager}
    (hSize : m.oneElementSize = size) (hCount : m.elementCount = count)
    (hFits : base + poolSize size count + 8 ≤ wordCount) :
    (freshPool m base).end_ = base + poolSize size count := by
  change (base + poolSize m.oneElementSize m.elementCount) % wordCount = _
  rw [hSize, hCount, Nat.mod_eq_of_lt (by omega)]

/-- Moving the cursor of the tail keeps every pool and every end. -/
theorem lookup_of_bump {s : PoolState} {cur pool : LtMemoryPool} {q : Nat}
    (hTail : s.heap s.manager.tail = some cur) (h : (bump s cur).heap q = some pool) :
    ∃ old, s.heap q = some old ∧ pool.end_ = old.end_ := by
  by_cases hq : q = s.manager.tail
  · subst hq
    simp only [bump, PoolHeap.write_same, Option.some.injEq] at h
    subst h
    exact ⟨cur, hTail, rfl⟩
  · simp only [bump, PoolHeap.write_other _ hq] at h
    exact ⟨pool, h, rfl⟩

theorem bump_keeps {s : PoolState} (cur : LtMemoryPool) {old : LtMemoryPool} {q : Nat}
    (h : s.heap q = some old) : ∃ pool, (bump s cur).heap q = some pool := by
  by_cases hq : q = s.manager.tail
  · subst hq
    exact ⟨_, PoolHeap.write_same _ _ _⟩
  · exact ⟨old, (PoolHeap.write_other _ hq).trans h⟩

theorem Ranges.bump {size count : Nat} {s : PoolState} {cur : LtMemoryPool}
    (h : Ranges size count s) (hTail : s.heap s.manager.tail = some cur) :
    Ranges size count (bump s cur) := by
  refine ⟨h.size_eq, h.count_eq, ?_, ?_⟩
  · intro q pool hPool
    obtain ⟨old, hOld, hEnd⟩ := lookup_of_bump hTail hPool
    rw [hEnd]
    exact h.range q old hOld
  · intro q r pool pool' hPool hPool' hNe
    obtain ⟨old, hOld, -⟩ := lookup_of_bump hTail hPool
    obtain ⟨old', hOld', -⟩ := lookup_of_bump hTail hPool'
    exact h.separate q r old old' hOld hOld' hNe

theorem Ranges.newPool {size count base : Nat} {s : PoolState} (h : Ranges size count s)
    (hFresh : FreshRange s.heap (poolSize size count) base) :
    Ranges size count (ltNewMemoryPool (some base) s).2 := by
  refine ⟨h.size_eq, h.count_eq, ?_, ?_⟩
  · intro q pool hPool
    rcases lookup_of_newPool hPool with ⟨rfl, -, hEnd⟩ | ⟨-, old, hOld, -, hEnd⟩
    · exact ⟨hFresh.aligned, hEnd.trans (freshPool_end h.size_eq h.count_eq hFresh.fits),
        hFresh.fits⟩
    · rw [hEnd]
      exact h.range q old hOld
  · have hApart : ∀ q old, s.heap q = some old →
        Apart base (poolSize size count) q (poolSize size count) := by
      intro q old hOld
      have hGap := hFresh.apart q old hOld
      rwa [(h.range q old hOld).2.1, Nat.add_sub_cancel_left] at hGap
    intro q r pool pool' hPool hPool' hNe
    rcases lookup_of_newPool hPool with ⟨rfl, -⟩ | ⟨-, old, hOld, -⟩ <;>
      rcases lookup_of_newPool hPool' with ⟨rfl, -⟩ | ⟨-, old', hOld', -⟩
    · exact (hNe rfl).elim
    · exact hApart r old' hOld'
    · exact (hApart q old hOld).symm
    · exact h.separate q r old old' hOld hOld' hNe

theorem FreshRange.bump {size base : Nat} {s : PoolState} {cur : LtMemoryPool}
    (h : FreshRange s.heap size base) (hTail : s.heap s.manager.tail = some cur) :
    FreshRange (bump s cur).heap size base := by
  refine ⟨h.aligned, h.nonnull, h.fits, ?_⟩
  intro q pool hPool
  obtain ⟨old, hOld, hEnd⟩ := lookup_of_bump hTail hPool
  rw [hEnd]
  exact h.apart q old hOld

/-- The pools stay separate ranges of one size under every `lt_alloc`. -/
theorem Ranges.alloc {size count base block : Nat} {s s' : PoolState}
    (h : Ranges size count s) (hFresh : Crosses s → FreshRange s.heap (poolSize size count) base)
    (hAlloc : ltAlloc (some base) s = some (block, s')) : Ranges size count s' := by
  obtain ⟨cur, hTail, -, ⟨-, rfl⟩ | ⟨hCross, rfl⟩⟩ := ltAlloc_cases hAlloc
  · exact h.bump hTail
  · exact (h.bump hTail).newPool ((hFresh ⟨cur, hTail, hCross⟩).bump hTail)

theorem ltAlloc_keeps {base block q : Nat} {s s' : PoolState} {old : LtMemoryPool}
    (hAlloc : ltAlloc (some base) s = some (block, s')) (h : s.heap q = some old) :
    ∃ pool, s'.heap q = some pool := by
  obtain ⟨cur, -, -, ⟨-, rfl⟩ | ⟨-, rfl⟩⟩ := ltAlloc_cases hAlloc
  · exact bump_keeps cur h
  · obtain ⟨pool, hPool⟩ := bump_keeps cur h
    exact newPool_keeps _ hPool

theorem ranges_of_run {size count : Nat} {s : PoolState} {blocks : List Nat}
    (run : AllocRun size count s blocks) : Ranges size count s := by
  induction run with
  | setup hFresh =>
      have hEmpty : Ranges size count ⟨⟨0, size, count, 0, 0⟩, fun _ => none⟩ :=
        ⟨rfl, rfl, by simp, by simp⟩
      exact ⟨rfl, rfl, (hEmpty.newPool hFresh).range, (hEmpty.newPool hFresh).separate⟩
  | alloc _ _ hFresh hAlloc ih => exact ih.alloc hFresh hAlloc

/-- A slot that ends inside the capacity lies inside its pool. -/
theorem blockAt_within {size count q i : Nat} (hSize : 1 ≤ size)
    (h : i * stride size + size ≤ capacity size count) :
    Within (blockAt size q i) size q (poolSize size count) := by
  unfold capacity at h
  unfold Within blockAt slot
  omega

/-- A block in slot `j` of the tail is separate from all blocks laid before. -/
theorem Laid.apart_next {size count j : Nat} {s : PoolState} {blocks : List Nat}
    (h : Laid size count s blocks j) (hSize : 1 ≤ size)
    (hSlot : j * stride size + size ≤ capacity size count) :
    ∀ b ∈ blocks, Apart b size (blockAt size s.manager.tail j) size := by
  intro b hb
  obtain ⟨q, pool, i, hPool, rfl, hInside, hServed⟩ := h.block b hb
  obtain ⟨cur, hTail, -⟩ := h.tail
  by_cases hq : q = s.manager.tail
  · subst hq
    exact slot_apart (size_le_stride size) (hServed rfl)
  · exact (h.separate q _ pool cur hPool hTail hq).mono
      (blockAt_within hSize hInside) (blockAt_within hSize hSlot)

/-- The cursor moves over slot `j` of the tail. -/
theorem Laid.bump {size count j : Nat} {s : PoolState} {blocks : List Nat} {cur : LtMemoryPool}
    (h : Laid size count s blocks j) (hSize : 1 ≤ size)
    (hSlot : j * stride size + size ≤ capacity size count) (hTail : s.heap s.manager.tail = some cur) :
    Laid size count (bump s cur) (blocks ++ [cur.pos]) (j + 1) := by
  obtain ⟨pool, hPool, hPos⟩ := h.tail
  obtain rfl : pool = cur := Option.some.inj (hPool.symm.trans hTail)
  obtain ⟨hAligned, -, hFits⟩ := h.range _ _ hTail
  refine ⟨h.toRanges.bump hTail, ⟨_, PoolHeap.write_same _ _ _, ?_⟩, ?_, ?_⟩
  · exact advance_slot h.size_eq hAligned hFits hPos hSlot hSize
  · intro b hb
    rcases List.mem_append.mp hb with hb | hb
    · obtain ⟨q, old, i, hOld, hEq, hInside, hLt⟩ := h.block b hb
      obtain ⟨pool', hPool'⟩ := bump_keeps pool hOld
      exact ⟨q, pool', i, hPool', hEq, hInside, fun hq => Nat.lt_succ_of_lt (hLt hq)⟩
    · rw [List.mem_singleton] at hb
      obtain ⟨pool', hPool'⟩ := bump_keeps pool hTail
      exact ⟨_, pool', j, hPool', hb.trans hPos, hSlot, fun _ => Nat.lt_succ_self j⟩
  · rw [List.pairwise_append]
    refine ⟨h.apart, List.pairwise_singleton _ _, ?_⟩
    intro b hb c hc
    rw [List.mem_singleton] at hc
    rw [hc, hPos]
    exact h.apart_next hSize hSlot b hb

/-- A fresh range is the address of no pool in memory. -/
theorem Ranges.unused {size count base : Nat} {s : PoolState} (h : Ranges size count s)
    (hHeader : sizeofPool ≤ poolSize size count) (hFresh : FreshRange s.heap (poolSize size count) base) :
    s.heap base = none := by
  cases hOld : s.heap base with
  | none => rfl
  | some old =>
      have hGap := hFresh.apart base old hOld
      rw [(h.range _ _ hOld).2.1, Nat.add_sub_cancel_left] at hGap
      exact (not_apart_self (by unfold sizeofPool at hHeader; omega) hGap).elim

/-- A fresh pool becomes the tail, with none of its slots served. -/
theorem Laid.newPool {size count j base : Nat} {s : PoolState} {blocks : List Nat}
    (h : Laid size count s blocks j) (hHeader : sizeofPool ≤ poolSize size count)
    (hFresh : FreshRange s.heap (poolSize size count) base) :
    Laid size count (ltNewMemoryPool (some base) s).2 blocks 0 := by
  have hUnused := h.toRanges.unused hHeader hFresh
  have hFits := hFresh.fits
  obtain ⟨new, hNew, hStart⟩ := newPool_base base (s := s)
  refine ⟨h.toRanges.newPool hFresh, ⟨new, hNew, ?_⟩, ?_, h.apart⟩
  · exact hStart.trans (freshPool_pos hFresh.aligned (by omega))
  · intro b hb
    obtain ⟨q, old, i, hOld, hEq, hInside, -⟩ := h.block b hb
    obtain ⟨pool', hPool'⟩ := newPool_keeps base hOld
    refine ⟨q, pool', i, hPool', hEq, hInside, fun hq => ?_⟩
    rw [hq, newPool_tail, hUnused] at hOld
    cases hOld

/-- One `lt_alloc` from a laid state whose next slot is inside the pool: the
block is that slot, and the state stays laid, in the same pool or in a new one. -/
theorem Laid.alloc {size count j base block : Nat} {s s' : PoolState} {blocks : List Nat}
    (h : Laid size count s blocks j) (hSize : 1 ≤ size)
    (hSlot : j * stride size + size ≤ capacity size count)
    (hFresh : Crosses s → FreshRange s.heap (poolSize size count) base)
    (hAlloc : ltAlloc (some base) s = some (block, s')) :
    Laid size count s' (blocks ++ [block])
      (if (j + 1) * stride size ≤ capacity size count then j + 1 else 0) := by
  obtain ⟨cur, hTail, rfl, hCases⟩ := ltAlloc_cases hAlloc
  obtain ⟨pool, hPool, hPos⟩ := h.tail
  obtain rfl : pool = cur := Option.some.inj (hPool.symm.trans hTail)
  obtain ⟨hAligned, hEnd, hFits⟩ := h.range _ _ hTail
  have hBump := h.bump hSize hSlot hTail
  have hHeader : capacity size count + sizeofPool = poolSize size count := by
    unfold capacity at hSlot ⊢
    omega
  -- the roll-over test compares `j + 1` slots with the capacity
  have hTest : advance s.manager pool ≤ pool.end_ ↔
      (j + 1) * stride size ≤ capacity size count := by
    rw [advance_slot h.size_eq hAligned hFits hPos hSlot hSize, hEnd]
    unfold blockAt slot
    omega
  rcases hCases with ⟨hStay, rfl⟩ | ⟨hCross, rfl⟩
  · rw [if_pos (hTest.mp hStay)]
    exact hBump
  · rw [if_neg (mt hTest.mpr (by omega))]
    exact hBump.newPool (by omega) ((hFresh ⟨pool, hTail, hCross⟩).bump hTail)

theorem laid_setup {size count base : Nat} {m : LtMemoryPoolManager}
    (hHeader : sizeofPool ≤ poolSize size count)
    (hFresh : FreshRange (fun _ => none) (poolSize size count) base) :
    Laid size count (ltNewMemoryPoolManager (some base) size count ⟨m, fun _ => none⟩) [] 0 := by
  have hFits := hFresh.fits
  obtain ⟨pool, hPool, hPos⟩ := newPool_base base
    (s := ⟨{ m with oneElementSize := size, elementCount := count, cur := 0 }, fun _ => none⟩)
  exact ⟨ranges_of_run (.setup hFresh),
    ⟨pool, hPool, hPos.trans (freshPool_pos hFresh.aligned (by omega))⟩, by simp, by simp⟩

/-- A laid state keeps the allocator's promise. -/
theorem Laid.sound {size count j : Nat} {s : PoolState} {blocks : List Nat}
    (h : Laid size count s blocks j) (hSize : 1 ≤ size) : BlocksSound size s.heap blocks := by
  refine ⟨?_, ?_, h.apart⟩
  · intro b hb
    obtain ⟨q, pool, i, hPool, rfl, -, -⟩ := h.block b hb
    have hAligned := (h.range q pool hPool).1
    have hStep : i * stride size = i * ((size + 7) / 8) * 8 := (Nat.mul_assoc _ _ _).symm
    unfold blockAt slot sizeofPool
    omega
  · intro b hb
    obtain ⟨q, pool, i, hPool, rfl, hInside, -⟩ := h.block b hb
    refine ⟨q, pool, hPool, ?_, ?_⟩
    · unfold blockAt slot
      omega
    · rw [(h.range q pool hPool).2.1]
      exact (blockAt_within hSize hInside).2

/-- As long as no pool is full, the number of blocks is the number of slots served. -/
theorem laid_of_short_run {size count : Nat} {s : PoolState} {blocks : List Nat}
    (run : AllocRun size count s blocks) (hSize : 1 ≤ size)
    (hHeader : sizeofPool ≤ poolSize size count)
    (hShort : blocks.length * stride size ≤ capacity size count) :
    Laid size count s blocks blocks.length := by
  induction run with
  | setup hFresh => exact laid_setup hHeader hFresh
  | @alloc s s' blocks base block prior hFresh hAlloc ih =>
      simp only [List.length_append, List.length_singleton] at hShort ⊢
      have hLess : blocks.length * stride size + stride size ≤ capacity size count := by
        rwa [Nat.add_mul, one_mul] at hShort
      have hStride := size_le_stride size
      have hNext := (ih (by omega)).alloc hSize (by omega) hFresh hAlloc
      rwa [if_pos hShort] at hNext

/-- When the bytes behind the last whole slot hold one more element, every state is laid. -/
theorem laid_of_slack {size count : Nat} {s : PoolState} {blocks : List Nat}
    (run : AllocRun size count s blocks) (hSize : 1 ≤ size)
    (hSlack : size ≤ capacity size count % stride size) :
    ∃ j, j ≤ capacity size count / stride size ∧ Laid size count s blocks j := by
  have hHeader : sizeofPool ≤ poolSize size count := by
    have hMod := Nat.mod_le (capacity size count) (stride size)
    unfold capacity at hSlack hMod
    omega
  induction run with
  | setup hFresh => exact ⟨0, Nat.zero_le _, laid_setup hHeader hFresh⟩
  | alloc base prior hFresh hAlloc ih =>
      obtain ⟨j, hj, hLaid⟩ := ih
      have hSplit := Nat.div_add_mod (capacity size count) (stride size)
      have hMul : j * stride size ≤ stride size * (capacity size count / stride size) := by
        rw [Nat.mul_comm]
        exact Nat.mul_le_mul_left _ hj
      refine ⟨_, ?_, hLaid.alloc hSize (by omega) hFresh hAlloc⟩
      split_ifs with hMore
      · exact (Nat.le_div_iff_mul_le (stride_pos hSize)).mpr hMore
      · exact Nat.zero_le _

/-- Once the run is longer than the first pool's whole slots, the block behind
the last whole slot has been handed out, and its pool stays in memory. -/
theorem overrun_of_long_run {size count : Nat} {s : PoolState} {blocks : List Nat}
    (run : AllocRun size count s blocks) (hSize : 1 ≤ size)
    (hHeader : sizeofPool ≤ poolSize size count)
    (hLong : capacity size count / stride size < blocks.length) :
    ∃ q pool, s.heap q = some pool ∧
      blockAt size q (capacity size count / stride size) ∈ blocks := by
  induction run with
  | setup hFresh => simp at hLong
  | @alloc s s' blocks base block prior hFresh hAlloc ih =>
      by_cases hBefore : capacity size count / stride size < blocks.length
      · obtain ⟨q, old, hOld, hMem⟩ := ih hBefore
        obtain ⟨pool, hPool⟩ := ltAlloc_keeps hAlloc hOld
        exact ⟨q, pool, hPool, List.mem_append_left _ hMem⟩
      · simp only [List.length_append, List.length_singleton] at hLong
        have hLength : blocks.length = capacity size count / stride size := by omega
        have hLaid := laid_of_short_run prior hSize hHeader (by
          rw [hLength]
          exact Nat.div_mul_le_self _ _)
        obtain ⟨pool, hPool, hPos⟩ := hLaid.tail
        obtain ⟨cur, hTail, hBlock, -⟩ := ltAlloc_cases hAlloc
        obtain rfl : pool = cur := Option.some.inj (hPool.symm.trans hTail)
        obtain ⟨pool', hPool'⟩ := ltAlloc_keeps hAlloc hPool
        refine ⟨s.manager.tail, pool', hPool', List.mem_append_right _ ?_⟩
        rw [List.mem_singleton, hBlock, hPos, hLength]

/-- A block that starts behind the last whole slot of one pool and does not
fit there lies in no pool at all. -/
theorem overrun_not_inPool {size count q : Nat} {s : PoolState} {pool : LtMemoryPool}
    (h : Ranges size count s) (hPool : s.heap q = some pool)
    (hHeader : sizeofPool ≤ poolSize size count)
    (hTight : capacity size count % stride size < size) :
    ¬ InPool size s.heap (blockAt size q (capacity size count / stride size)) := by
  rintro ⟨r, other, hOther, hLow, hHigh⟩
  rw [(h.range r other hOther).2.1] at hHigh
  have hSplit := Nat.div_add_mod (capacity size count) (stride size)
  have hCapacity : capacity size count + sizeofPool = poolSize size count := by
    unfold capacity
    omega
  unfold blockAt slot at hLow hHigh
  rw [Nat.mul_comm (stride size)] at hSplit
  by_cases hq : q = r
  · subst hq
    omega
  · have hHeaderSize : sizeofPool = 40 := rfl
    rcases h.separate q r pool other hPool hOther hq with hGap | hGap <;> omega

/-- `lt_alloc` keeps the allocator's promise over a run exactly when each pool has room
for the element returned at its roll-over, or the run is too short to reach a roll-over.
Sizes and counts are any ones for which the run is defined. -/
theorem ltAlloc_sound_iff {size count : Nat} {s : PoolState} {blocks : List Nat}
    (hSize : 1 ≤ size) (run : AllocRun size count s blocks) :
    BlocksSound size s.heap blocks ↔
      size ≤ capacity size count % stride size ∨
        blocks.length ≤ capacity size count / stride size := by
  constructor
  · intro hSound
    by_contra hNot
    obtain ⟨hTight, hLong⟩ := not_or.mp hNot
    rw [not_le] at hTight hLong
    by_cases hHeader : sizeofPool ≤ poolSize size count
    · obtain ⟨q, pool, hPool, hMem⟩ := overrun_of_long_run run hSize hHeader hLong
      exact overrun_not_inPool (ranges_of_run run) hPool hHeader hTight
        (hSound.inPool _ hMem)
    · obtain ⟨b, hb⟩ := List.exists_mem_of_length_pos (Nat.zero_lt_of_lt hLong)
      obtain ⟨q, pool, hPool, hLow, hHigh⟩ := hSound.inPool b hb
      rw [((ranges_of_run run).range q pool hPool).2.1] at hHigh
      omega
  · rintro (hSlack | hShort)
    · obtain ⟨j, -, hLaid⟩ := laid_of_slack run hSize hSlack
      exact hLaid.sound hSize
    · rcases Nat.eq_zero_or_pos blocks.length with hZero | hPositive
      · rw [List.length_eq_zero_iff.mp hZero]
        exact ⟨by simp, by simp, List.Pairwise.nil⟩
      · have hRoom := (Nat.le_div_iff_mul_le (stride_pos hSize)).mp hShort
        have hStride := Nat.mul_le_mul hPositive (stride_pos hSize)
        have hHeader : sizeofPool ≤ poolSize size count := by
          unfold capacity at hRoom
          omega
        exact (laid_of_short_run run hSize hHeader hRoom).sound hSize

/-- The second pool only has to keep off the first one. -/
theorem freshRange_second {h : PoolHeap} {size q base : Nat} {cur : LtMemoryPool} (hAt : h q = some cur)
    (hOnly : ∀ r, r ≠ q → h r = none) (hAligned : base % 16 = 0) (hPos : 0 < base)
    (hFits : base + size + 8 ≤ wordCount) (hApart : Apart base size q (cur.end_ - q)) : FreshRange h size base := by
  refine ⟨hAligned, hPos, hFits, fun r pool hPool => ?_⟩
  by_cases hr : r = q
  · subst hr
    obtain rfl : pool = cur := Option.some.inj (hPool.symm.trans hAt)
    exact hApart
  · rw [hOnly r hr] at hPool
    cases hPool

/-- One 16-byte element per pool: the second block is cut behind the end of the first pool. -/
private theorem run_sixteen_one : ∃ s, AllocRun 16 1 s [56, 72] ∧ ∃ pool, s.heap 16 = some pool := by
  have hFirst : FreshRange (fun _ => none) (poolSize 16 1) 16 := by
    refine ⟨by decide, by decide, by decide, ?_⟩
    intro q pool hPool
    cases hPool
  have run₀ := AllocRun.setup (m := ⟨0, 0, 0, 0, 0⟩) hFirst
  have run₁ := AllocRun.alloc 96 run₀
    (fun hCross => by
      obtain ⟨cur, hCur, hOver⟩ := hCross
      cases hCur
      exact absurd hOver (by decide)) rfl
  have run₂ := AllocRun.alloc 96 run₁
    (fun _ => freshRange_second (q := 16) rfl
      (fun q hq => by simp [bump, ltNewMemoryPoolManager, ltNewMemoryPool, PoolHeap.write, hq])
      (by decide) (by decide) (by decide) (by decide)) rfl
  exact ⟨_, run₂, _, rfl⟩

/-- The promise is broken by two elements of 16 bytes from pools of one element. -/
theorem ltAlloc_not_sound :
    ¬ ∀ (size count : Nat) (s : PoolState) (blocks : List Nat), 1 ≤ size → 1 ≤ count →
      AllocRun size count s blocks → BlocksSound size s.heap blocks := by
  intro hClaim
  obtain ⟨s, run, pool, hPool⟩ := run_sixteen_one
  have hSound := hClaim 16 1 s [56, 72] (by decide) (by decide) run
  exact overrun_not_inPool (ranges_of_run run) hPool (by decide) (by decide)
    (hSound.inPool _ (by decide))

theorem ltAlloc_sound_iff_sixteen_one : ∃ s : PoolState, AllocRun 16 1 s [56, 72] ∧
    (BlocksSound 16 s.heap [56, 72] ↔
      16 ≤ capacity 16 1 % stride 16 ∨ [56, 72].length ≤ capacity 16 1 / stride 16) := by
  obtain ⟨s, run, -⟩ := run_sixteen_one
  exact ⟨s, run, ltAlloc_sound_iff (by decide) run⟩

end Leactor.Pool
