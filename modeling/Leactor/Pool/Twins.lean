import Leactor.Pool.Soundness

/-! The request pool that `proxy_connect` shares between a client connection and
its pair: each has a copy of the manager, and the pools are the same. -/
namespace Leactor.Pool

open Extent

def sizeofRequest : Nat := 552

def requestCount : Nat := 4

structure Connection where
  requestPoolManager : LtMemoryPoolManager
  requestFreeHead : Nat

/-- A client connection and its pair, the pools and the field `next` of the
requests in memory, and the blocks handed out so far. -/
structure Twins where
  client : Connection
  pair : Connection
  heap : PoolHeap
  next : Nat → Nat
  blocks : List Nat

inductive Side where
  | client
  | pair

/-- `http_create_request`, as far as it takes a block: from the list at
`request_free_head`, or from the pool. -/
def httpCreateRequest (answer : Option Nat) (conn : Connection) (heap : PoolHeap) (next : Nat → Nat) :
    Option (Nat × Connection × PoolHeap) :=
  if conn.requestFreeHead ≠ 0 then
    some (conn.requestFreeHead, { conn with requestFreeHead := next conn.requestFreeHead }, heap)
  else
    (ltAlloc answer ⟨conn.requestPoolManager, heap⟩).map fun r =>
      (r.1, { conn with requestPoolManager := r.2.manager }, r.2.heap)

namespace Twins

def conn (s : Twins) : Side → Connection
  | .client => s.client
  | .pair => s.pair

def create (s : Twins) (side : Side) (answer : Option Nat) : Option Twins :=
  (httpCreateRequest answer (s.conn side) s.heap s.next).map fun r =>
    match side with
    | .client => { s with client := r.2.1, heap := r.2.2, blocks := s.blocks ++ [r.1] }
    | .pair => { s with pair := r.2.1, heap := r.2.2, blocks := s.blocks ++ [r.1] }

/-- `http_init_connection` and the copy in `proxy_connect`, which leaves
`request_free_head` of the pair unset. -/
def connect (m : LtMemoryPoolManager) (base junk : Nat) (next : Nat → Nat) : Twins :=
  let s := ltNewMemoryPoolManager (some base) sizeofRequest requestCount ⟨m, fun _ => none⟩
  { client := ⟨s.manager, 0⟩, pair := ⟨s.manager, junk⟩, heap := s.heap, next := next, blocks := [] }

def Crosses (s : Twins) (side : Side) : Prop :=
  Pool.Crosses ⟨(s.conn side).requestPoolManager, s.heap⟩

/-- The runs of `http_create_request` on the two connections, with
`aligned_alloc` succeeding, where each call meets a condition on the state before. -/
inductive Created (guard : Twins → Side → Prop) : Twins → Prop where
  | connect (m : LtMemoryPoolManager) {base : Nat} (junk : Nat) (next : Nat → Nat)
      (hFresh : FreshRange (fun _ => none) (poolSize sizeofRequest requestCount) base) :
      Created guard (connect m base junk next)
  | create {s s' : Twins} (side : Side) (base : Nat) (prior : Created guard s) (hGuard : guard s side)
      (hFresh : s.Crosses side → FreshRange s.heap (poolSize sizeofRequest requestCount) base)
      (hCreate : s.create side (some base) = some s') : Created guard s'

/-- The links of the pools lead from one to the others in order, and end in NULL. -/
def Linked (heap : PoolHeap) : Nat → List Nat → Prop
  | p, [] => p = 0
  | p, q :: qs => p = q ∧ ∃ pool, heap q = some pool ∧ Linked heap pool.next qs

structure OnePool (s : Twins) : Prop where
  tail : s.client.requestPoolManager.tail = s.pair.requestPoolManager.tail
  head : s.client.requestPoolManager.head = s.pair.requestPoolManager.head
  pools : ∃ qs : List Nat, qs.Nodup ∧ Linked s.heap s.client.requestPoolManager.head qs ∧
    ∀ q, (∃ pool, s.heap q = some pool) ↔ q ∈ qs
  apart : s.blocks.Pairwise fun b c => Apart b sizeofRequest c sizeofRequest

/-- There is room in the first pool, and the list of free requests is empty. -/
def Fits (s : Twins) (side : Side) : Prop :=
  s.blocks.length < requestCount ∧ (s.conn side).requestFreeHead = 0

end Twins

/-- A pool with a whole slot left is not left by the next allocation. -/
theorem Laid.not_crosses {size count j : Nat} {s : PoolState} {blocks : List Nat} (h : Laid size count s blocks j)
    (hSize : 1 ≤ size) (hRoom : (j + 1) * stride size ≤ capacity size count) : ¬ Crosses s := by
  rintro ⟨cur, hTail, hOver⟩
  obtain ⟨pool, hPool, hPos⟩ := h.tail
  obtain rfl : pool = cur := Option.some.inj (hPool.symm.trans hTail)
  obtain ⟨hAligned, hEnd, hFits⟩ := h.range _ _ hTail
  have hStride := size_le_stride size
  have hSlot : j * stride size + size ≤ capacity size count := by
    rw [Nat.add_mul, one_mul] at hRoom
    omega
  rw [advance_slot h.size_eq hAligned hFits hPos hSlot hSize, hEnd] at hOver
  unfold blockAt slot capacity at *
  omega

/-- An allocation that stays in the tail pool only moves its cursor. -/
theorem ltAlloc_stays {answer : Option Nat} {s s' : PoolState} {block : Nat} (hStay : ¬ Crosses s)
    (h : ltAlloc answer s = some (block, s')) :
    s'.manager = s.manager ∧ ∃ cur, s.heap s.manager.tail = some cur ∧
      s'.heap = s.heap.write s.manager.tail { cur with pos := advance s.manager cur } := by
  obtain ⟨cur, hTail, -, ⟨-, rfl⟩ | ⟨hCross, -⟩⟩ := ltAlloc_cases h
  · exact ⟨rfl, cur, hTail, rfl⟩
  · exact absurd ⟨cur, hTail, hCross⟩ hStay

namespace Twins

/-- The two managers are the same, and the only pool has served one slot for each block. -/
structure Shared (s : Twins) : Prop where
  same : s.pair.requestPoolManager = s.client.requestPoolManager
  head : s.client.requestPoolManager.head = s.client.requestPoolManager.tail
  only : ∀ q pool, s.heap q = some pool → q = s.client.requestPoolManager.tail
  last : ∃ pool, s.heap s.client.requestPoolManager.tail = some pool ∧ pool.next = 0
  laid : Laid sizeofRequest requestCount ⟨s.client.requestPoolManager, s.heap⟩ s.blocks s.blocks.length

theorem Shared.onePool {s : Twins} (h : s.Shared) : s.OnePool where
  tail := by rw [h.same]
  head := by rw [h.same]
  pools := by
    obtain ⟨pool, hPool, hNext⟩ := h.last
    refine ⟨[s.client.requestPoolManager.tail], List.nodup_singleton _, ⟨h.head, pool, hPool, hNext⟩, fun q => ?_⟩
    rw [List.mem_singleton]
    exact ⟨fun ⟨pool, hq⟩ => h.only q pool hq, fun hq => ⟨pool, hq ▸ hPool⟩⟩
  apart := h.laid.apart

theorem shared_connect (m : LtMemoryPoolManager) {base : Nat} (junk : Nat) (next : Nat → Nat)
    (hFresh : FreshRange (fun _ => none) (poolSize sizeofRequest requestCount) base) :
    (connect m base junk next).Shared where
  same := rfl
  head := rfl
  only q pool hq := by
    change (if q = base then some _ else none) = some pool at hq
    split_ifs at hq with hBase
    exact hBase
  last := ⟨_, PoolHeap.write_same _ _ _, rfl⟩
  laid := laid_setup (by decide) hFresh

/-- A call that fits takes the next slot of the one pool. It moves the cursor of the
pool, which both copies of the manager point to. -/
theorem Shared.create {s s' : Twins} (h : s.Shared) {side : Side} {base : Nat} (hFits : s.Fits side)
    (hCreate : s.create side (some base) = some s') : s'.Shared := by
  have hManager : (s.conn side).requestPoolManager = s.client.requestPoolManager := by
    cases side with
    | client => rfl
    | pair => exact h.same
  have hRoom : (s.blocks.length + 1) * stride sizeofRequest ≤ capacity sizeofRequest requestCount := by
    have hLess : s.blocks.length < 4 := hFits.1
    have hStride : stride sizeofRequest = 552 := rfl
    have hCapacity : capacity sizeofRequest requestCount = 2216 := rfl
    rw [hStride, hCapacity]
    omega
  have hStay := h.laid.not_crosses (by decide) hRoom
  unfold Twins.create httpCreateRequest at hCreate
  rw [if_neg (not_not.mpr hFits.2), hManager, Option.map_map, Option.map_eq_some_iff] at hCreate
  obtain ⟨⟨block, t⟩, hAlloc, hResult⟩ := hCreate
  obtain ⟨hSame, cur, hTail, hHeap⟩ := ltAlloc_stays hStay hAlloc
  simp only at hSame hTail hHeap
  have hLaid := h.laid.alloc (by decide) (by
    have hStride := size_le_stride sizeofRequest
    rw [Nat.add_mul, one_mul] at hRoom
    omega) (fun hCross => absurd hCross hStay) hAlloc
  rw [if_pos hRoom] at hLaid
  obtain ⟨last, hLast, hNext⟩ := h.last
  obtain rfl : last = cur := Option.some.inj (hLast.symm.trans hTail)
  have hOnly : ∀ q pool, t.heap q = some pool → q = s.client.requestPoolManager.tail := by
    intro q pool hq
    by_contra hNe
    rw [hHeap, PoolHeap.write_other _ hNe] at hq
    exact hNe (h.only q pool hq)
  have hTail' : ∃ pool, t.heap s.client.requestPoolManager.tail = some pool ∧ pool.next = 0 :=
    ⟨{ last with pos := advance s.client.requestPoolManager last }, by rw [hHeap, PoolHeap.write_same], hNext⟩
  have hState : t = ⟨s.client.requestPoolManager, t.heap⟩ := by rw [← hSame]
  rw [hState] at hLaid
  have hLength : (s.blocks ++ [block]).length = s.blocks.length + 1 := List.length_append
  rw [← hLength] at hLaid
  cases side with
  | client =>
      simp only [Function.comp_apply, hSame] at hResult
      subst hResult
      exact ⟨h.same, h.head, hOnly, hTail', hLaid⟩
  | pair =>
      simp only [Function.comp_apply, hSame] at hResult
      subst hResult
      exact ⟨rfl, h.head, hOnly, hTail', hLaid⟩

theorem Created.shared {s : Twins} (hRun : Created Fits s) : s.Shared := by
  induction hRun with
  | connect m junk next hFresh => exact shared_connect m junk next hFresh
  | create side base prior hFits hFresh hCreate ih => exact ih.create hFits hCreate

/-- In every run whose calls fit, the two connections share one pool, though each keeps
a copy of the manager. The copies differ as soon as one of them rolls over. -/
theorem onePool_of_run {s : Twins} (hRun : Created Fits s) : s.OnePool := hRun.shared.onePool

theorem Created.mono {guard guard' : Twins → Side → Prop} {s : Twins} (hRun : Created guard s)
    (h : ∀ s side, guard s side → guard' s side) : Created guard' s := by
  induction hRun with
  | connect m junk next hFresh => exact .connect m junk next hFresh
  | create side base prior hGuard hFresh hCreate ih => exact .create side base ih (h _ _ hGuard) hFresh hCreate

/-- `http_init_connection` and `proxy_connect` with a first pool at address 16. -/
def twinsAt16 : Twins := connect ⟨0, 0, 0, 0, 0⟩ 16 0 fun _ => 0

theorem freshRange_16 : FreshRange (fun _ => none) (poolSize sizeofRequest requestCount) 16 :=
  ⟨by decide, by decide, by decide, fun _ _ hNone => nomatch hNone⟩

/-- A call that stays in the pool needs no fresh range. -/
theorem Created.create_within {guard : Twins → Side → Prop} {s s' : Twins} {cur : LtMemoryPool} (side : Side)
    (prior : Created guard s) (hGuard : guard s side)
    (hTail : s.heap (s.conn side).requestPoolManager.tail = some cur)
    (hRoom : advance (s.conn side).requestPoolManager cur ≤ cur.end_)
    (hCreate : s.create side (some 4096) = some s') : Created guard s' := by
  refine .create side 4096 prior hGuard ?_ hCreate
  rintro ⟨cur', hCur, hOver⟩
  obtain rfl : cur = cur' := Option.some.inj (hTail.symm.trans hCur)
  exact absurd hOver (not_lt.mpr hRoom)

/-- Five requests of the client: the fifth one makes a pool that the pair does not see. -/
theorem not_onePool_of_run :
    ¬ ∀ s, Created (fun _ _ => True) s → s.OnePool := by
  intro hClaim
  have run₀ : Created Fits twinsAt16 := .connect ⟨0, 0, 0, 0, 0⟩ 0 (fun _ => 0) freshRange_16
  have run₁ := run₀.create_within .client ⟨by decide, rfl⟩ rfl (by decide) rfl
  have run₂ := run₁.create_within .client ⟨by decide, rfl⟩ rfl (by decide) rfl
  have run₃ := run₂.create_within .client ⟨by decide, rfl⟩ rfl (by decide) rfl
  have run₄ := run₃.create_within .client ⟨by decide, rfl⟩ rfl (by decide) rfl
  have run₅ := Created.create .client 4096 (run₄.mono fun _ _ _ => trivial) trivial (fun _ => by
    refine ⟨by decide, by decide, by decide, fun q pool hPool => ?_⟩
    obtain rfl := run₄.shared.only q pool hPool
    cases hPool
    decide) rfl
  exact absurd (hClaim _ run₅).tail (by decide)

/-- Four requests, taken by the two connections in turn. -/
theorem onePool_of_run_inTurn : ∃ s, Created Fits s ∧ s.blocks = [56, 608, 1160, 1712] ∧ s.OnePool := by
  have run₀ : Created Fits twinsAt16 := .connect ⟨0, 0, 0, 0, 0⟩ 0 (fun _ => 0) freshRange_16
  have run₁ := run₀.create_within .client ⟨by decide, rfl⟩ rfl (by decide) rfl
  have run₂ := run₁.create_within .pair ⟨by decide, rfl⟩ rfl (by decide) rfl
  have run₃ := run₂.create_within .client ⟨by decide, rfl⟩ rfl (by decide) rfl
  have run₄ := run₃.create_within .pair ⟨by decide, rfl⟩ rfl (by decide) rfl
  exact ⟨_, run₄, rfl, onePool_of_run run₄⟩

end Twins
end Leactor.Pool
