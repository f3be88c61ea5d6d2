import Leactor.Library.Extent

/-! The memory pools of lt_pool.c. Addresses, `size_t` and `uintptr_t` are
natural numbers below `2 ^ 64`; every addition that can leave that range is
reduced explicitly. Address 0 is NULL. -/
namespace Leactor.Pool

/-- The number of values of `size_t` and `uintptr_t` under LP64. -/
def wordCount : Nat := 2 ^ 64

/-- `sizeof(lt_memory_pool_t)`: start, end, pos, next and manager. -/
def sizeofPool : Nat := 40

/-- `sizeof(lt_memory_pool_manager_t)`: six eight-byte fields. -/
def sizeofManager : Nat := 48

/-- The `alignment_ptr` macro; `~(a - 1)` is `2 ^ 64 - a` on 64 bits. -/
def alignmentPtr (p a : Nat) : Nat :=
  (p + (a - 1)) % wordCount &&& (wordCount - a)

/-- `lt_memory_pool_t`, less the back pointer to its manager, which nothing reads. -/
structure LtMemoryPool where
  start : Nat
  end_ : Nat
  pos : Nat
  next : Nat

/-- `lt_memory_pool_manager_t`, less the unused `heterogeneous_next`. -/
structure LtMemoryPoolManager where
  cur : Nat
  oneElementSize : Nat
  elementCount : Nat
  head : Nat
  tail : Nat

abbrev PoolHeap := Nat → Option LtMemoryPool

structure PoolState where
  manager : LtMemoryPoolManager
  heap : PoolHeap

def PoolHeap.write (h : PoolHeap) (p : Nat) (pool : LtMemoryPool) : PoolHeap :=
  fun q => if q = p then some pool else h q

def PoolHeap.link (h : PoolHeap) (tail pool : Nat) : PoolHeap :=
  fun q => if q = tail then (h q).map fun t => { t with next := pool } else h q

/-- `size_of_pool_struct_and_all_elements`: the header is counted with the
size of the manager struct. -/
def poolSize (oneElementSize elementCount : Nat) : Nat :=
  (sizeofManager + elementCount * oneElementSize % wordCount) % wordCount

/-- The pool that `lt_new_memory_pool` writes at the address `aligned_alloc` returned. -/
def freshPool (m : LtMemoryPoolManager) (base : Nat) : LtMemoryPool where
  start := base
  pos := alignmentPtr ((base + sizeofPool) % wordCount) 8
  end_ := (base + poolSize m.oneElementSize m.elementCount) % wordCount
  next := 0

/-- `lt_new_memory_pool`. `answer` is what `aligned_alloc` returns, `none` for NULL. -/
def ltNewMemoryPool (answer : Option Nat) (s : PoolState) : Option Nat × PoolState :=
  match answer with
  | none => (none, s)
  | some pool =>
      let heap := s.heap.write pool (freshPool s.manager pool)
      let heap := if s.manager.cur ≠ 0 then heap.link s.manager.tail pool else heap
      (some pool, { manager := { s.manager with cur := pool, tail := pool }, heap := heap })

/-- `lt_new_memory_pool_manager` on a manager struct the caller supplies. -/
def ltNewMemoryPoolManager (answer : Option Nat) (oneElementSize elementCount : Nat)
    (s : PoolState) : PoolState :=
  let cleared : PoolState :=
    { s with manager := { s.manager with
        oneElementSize := oneElementSize, elementCount := elementCount, cur := 0 } }
  let (pool, s') := ltNewMemoryPool answer cleared
  let cur := pool.getD 0
  { s' with manager := { s'.manager with cur := cur, tail := cur, head := cur } }

/-- The cursor of `pool` after one more element. -/
def advance (m : LtMemoryPoolManager) (pool : LtMemoryPool) : Nat :=
  alignmentPtr ((pool.pos + m.oneElementSize) % wordCount) 8

/-- The state with the cursor of the tail pool `cur` moved. -/
def bump (s : PoolState) (cur : LtMemoryPool) : PoolState :=
  { s with heap := s.heap.write s.manager.tail { cur with pos := advance s.manager cur } }

/-- `lt_alloc`. `none` is the dereference of a tail that is no pool. The
block returned is the old cursor, also when the new cursor passed the end. -/
def ltAlloc (answer : Option Nat) (s : PoolState) : Option (Nat × PoolState) :=
  match s.heap s.manager.tail with
  | none => none
  | some cur =>
      if advance s.manager cur > cur.end_ then
        some (cur.pos, (ltNewMemoryPool answer (bump s cur)).2)
      else some (cur.pos, bump s cur)

/-- Does the next `lt_alloc` ask for a new pool? -/
def Crosses (s : PoolState) : Prop :=
  ∃ cur, s.heap s.manager.tail = some cur ∧ advance s.manager cur > cur.end_

@[simp] theorem PoolHeap.write_same (h : PoolHeap) (p : Nat) (pool : LtMemoryPool) :
    h.write p pool p = some pool := by
  simp [PoolHeap.write]

theorem PoolHeap.write_other {h : PoolHeap} {p q : Nat} (pool : LtMemoryPool) (hq : q ≠ p) :
    h.write p pool q = h q := by
  simp [PoolHeap.write, hq]

@[simp] theorem PoolHeap.link_same (h : PoolHeap) (tail pool : Nat) :
    h.link tail pool tail = (h tail).map fun t => { t with next := pool } := by
  simp [PoolHeap.link]

theorem PoolHeap.link_other {h : PoolHeap} {tail q : Nat} (pool : Nat) (hq : q ≠ tail) :
    h.link tail pool q = h q := by
  simp [PoolHeap.link, hq]

/-- Without wrap-around the macro rounds up to the next multiple of eight. -/
theorem alignmentPtr_eight {p : Nat} (h : p + 7 < wordCount) :
    alignmentPtr p 8 = (p + 7) / 8 * 8 := by
  have hPow : wordCount - 8 = 2 ^ 64 - 2 ^ 3 := by norm_num [wordCount]
  rw [alignmentPtr, hPow, Nat.mod_eq_of_lt h]
  exact Extent.land_high_bits (by omega) h

end Leactor.Pool
