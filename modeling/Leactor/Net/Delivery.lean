import Leactor.Net.Recv
import Leactor.Net.SendBuffers

/-! One call of `lt_recv` on the buffer of `lt_new_buffer_chain`: how it comes back,
and where the bytes of its batch are. -/
namespace Leactor

open Scan Memory

deriving instance DecidableEq for RecvResult

/-- What a call of `lt_recv` meets: the buffers that `lt_alloc` returns, the deliveries
of `recv`, and how it ends. The buffers do not touch, as the struct of a buffer is
longer than its array. -/
structure Delivery where
  fresh : Nat → Nat
  deliveries : List (List UInt8)
  last : RecvResult
  last_ends : ∀ w, last ≠ .data w
  fits : Deliverable defaultBufSize deliveries
  apart : ∀ i j, i < j → fresh i + defaultBufSize < fresh j ∨ fresh j + defaultBufSize < fresh i
  bounded : ∀ i, i ≤ deliveries.length → fresh i + defaultBufSize < 2 ^ 64

def RecvState.firstBuf (s : RecvState) : LtBuffer := s.bufs.head (by simp [RecvState.bufs])

/-- What `lt_recv` returns behind its last `recv`, with `n` bytes received. -/
def recvCode : RecvResult → Nat → Int
  | .closed, _ => Res.lclose.code
  | .error, _ => Res.lerror.code
  | .data _, n | .eagain, n => if 0 < n then n else Res.lagain.code

theorem recvStep_last (fresh : Nat → Nat) (p : Nat) (s : RecvState) {last : RecvResult}
    (hLast : ∀ w, last ≠ .data w) : recvStep fresh p s last = .halt (recvCode last s.recvLen, s) := by
  cases last with
  | data w => exact absurd rfl (hLast w)
  | closed => rfl
  | error => rfl
  | eagain => rfl

/-- Any row of deliveries is taken in, and none of them fills more than one buffer. -/
theorem run_data (fresh : Nat → Nat) (p : Nat) (s : RecvState) (ws : List (List UInt8)) :
    ∃ t, run (recvStep fresh) p s (ws.map .data) = .pending t ∧ t.recvLen = s.recvLen + ws.flatten.length ∧
      t.filled.length ≤ s.filled.length + ws.length := by
  induction ws generalizing p s with
  | nil => exact ⟨s, rfl, by simp, Nat.le_refl _⟩
  | cons w ws ih =>
      obtain ⟨t, hStep, hLen, hFilled⟩ : ∃ t, recvStep fresh p s (.data w) = .next t ∧
          t.recvLen = s.recvLen + w.length ∧ t.filled.length ≤ s.filled.length + 1 := by
        simp only [recvStep]
        split_ifs
        · exact ⟨_, rfl, rfl, by simp⟩
        · exact ⟨_, rfl, rfl, Nat.le_succ _⟩
      obtain ⟨v, hRun, hEnd, hMost⟩ := ih (p + 1) t
      refine ⟨v, (run_cons_next _ hStep).trans hRun, ?_, ?_⟩
      · rw [hEnd, hLen, List.flatten_cons, List.length_append, Nat.add_assoc]
      · rw [List.length_cons]
        omega

namespace Delivery

def batch (u : Delivery) : List UInt8 := u.deliveries.flatten

/-- The results of `recv`, call by call. -/
def results (u : Delivery) : List RecvResult := u.deliveries.map .data ++ [u.last]

/-- `lt_recv`: its return value, and what it has filled. -/
def Receives (u : Delivery) (mem : Mem) (rv : Int) (s : RecvState) : Prop :=
  ∃ i, run (recvStep u.fresh) 0 (.enter mem (ltNewBuffer (u.fresh 0))) u.results = .halted i (rv, s)

variable {u : Delivery} {mem : Mem} {rv : Int} {s : RecvState}

/-- The loop takes in all deliveries, and returns behind the last result of `recv`. -/
theorem Receives.run_eq (h : u.Receives mem rv s) :
    run (recvStep u.fresh) 0 (.enter mem (ltNewBuffer (u.fresh 0))) (u.deliveries.map .data) = .pending s ∧
      rv = recvCode u.last u.batch.length := by
  obtain ⟨i, hRun⟩ := h
  obtain ⟨t, hData, hLen, -⟩ := run_data u.fresh 0 (.enter mem (ltNewBuffer (u.fresh 0))) u.deliveries
  rw [results, run_append_of_pending _ hData, run_cons_halt _ (recvStep_last _ _ _ u.last_ends)] at hRun
  have hCount : t.recvLen = u.batch.length := by
    rw [hLen, batch]
    exact Nat.zero_add _
  rw [hCount] at hRun
  cases hRun
  exact ⟨hData, rfl⟩

/-- `lt_recv` comes back, with one result. -/
theorem receives (u : Delivery) (mem : Mem) : ∃ rv s, u.Receives mem rv s := by
  obtain ⟨t, hData, -⟩ := run_data u.fresh 0 (.enter mem (ltNewBuffer (u.fresh 0))) u.deliveries
  exact ⟨_, t, _, by
    rw [results, run_append_of_pending _ hData]
    exact run_cons_halt _ (recvStep_last _ _ _ u.last_ends)⟩

theorem Receives.unique {rv' : Int} {s' : RecvState} (h : u.Receives mem rv s) (h' : u.Receives mem rv' s') :
    rv = rv' ∧ s = s' := by
  obtain ⟨i, hRun⟩ := h
  obtain ⟨j, hRun'⟩ := h'
  rw [hRun] at hRun'
  cases hRun'
  exact ⟨rfl, rfl⟩

/-- The batch is stored in the buffers. -/
theorem Receives.stored (h : u.Receives mem rv s) : Stored u.batch s ∧ InBlocks u.fresh s := by
  obtain ⟨hStored, hBlocks⟩ := enter_stored u.fresh mem
  have hApart : BlocksApart u.fresh := fun i j hLt => (u.apart i j hLt).imp Nat.le_of_lt Nat.le_of_lt
  obtain ⟨t, hRun, hEnd, hPlaces⟩ := run_deliveries hApart 0 hStored hBlocks (by
    simpa [RecvState.length, RecvState.enter, ltNewBuffer] using u.fits)
  rw [h.run_eq.1] at hRun
  cases hRun
  exact ⟨hEnd, hPlaces⟩

/-- The buffers lie apart. -/
theorem Receives.placed (h : u.Receives mem rv s) : WellPlaced s.bufs := by
  obtain ⟨-, hBlocks⟩ := h.stored
  obtain ⟨t, hRun, -, hFilled⟩ := run_data u.fresh 0 (.enter mem (ltNewBuffer (u.fresh 0))) u.deliveries
  rw [h.run_eq.1] at hRun
  cases hRun
  have hCount : s.bufs.length = s.filled.length + 1 := by simp [RecvState.bufs]
  have hMost : s.filled.length ≤ u.deliveries.length := by simpa [RecvState.enter] using hFilled
  refine ⟨fun b hb => ?_, fun b hb => ?_, List.pairwise_iff_getElem.mpr fun i j hi hj hLt => ?_⟩
  · obtain ⟨i, hi⟩ := List.mem_iff_getElem?.mp hb
    obtain ⟨hStart, hPos, hLow, hHigh, hEnd⟩ := hBlocks.starts i b hi
    exact ⟨by omega, by omega, hEnd ▸ hHigh⟩
  · obtain ⟨i, hi⟩ := List.mem_iff_getElem?.mp hb
    obtain ⟨hIndex, -⟩ := List.getElem?_eq_some_iff.mp hi
    rw [(hBlocks.starts i b hi).1]
    exact u.bounded i (by omega)
  · rw [(hBlocks.starts i _ (List.getElem?_eq_getElem hi)).1, (hBlocks.starts j _ (List.getElem?_eq_getElem hj)).1]
    exact u.apart i j hLt

/-- The first buffer. -/
theorem Receives.first (h : u.Receives mem rv s) :
    ∃ b rest, s.bufs = b :: rest ∧ s.firstBuf = b ∧ b.pos = b.start ∧ b.start = u.fresh 0 ∧
      b.start ≤ b.last ∧ b.last ≤ b.start + defaultBufSize ∧
      (rest = [] ∨ b.last = b.start + defaultBufSize) := by
  obtain ⟨hStored, hBlocks⟩ := h.stored
  have hFirst := hBlocks.starts 0
  cases hFilled : s.filled with
  | nil =>
      have hBufs : s.bufs = [s.buf] := by rw [RecvState.bufs, hFilled, List.nil_append]
      obtain ⟨hStart, hPos, hLow, hHigh, hEnd⟩ := hFirst s.buf (by rw [hBufs]; rfl)
      refine ⟨s.buf, [], hBufs, ?_, hPos, hStart, hLow, by omega, Or.inl rfl⟩
      simp only [RecvState.firstBuf, hBufs, List.head_cons]
  | cons b filled =>
      have hBufs : s.bufs = b :: (filled ++ [s.buf]) := by rw [RecvState.bufs, hFilled, List.cons_append]
      obtain ⟨hStart, hPos, hLow, hHigh, hEnd⟩ := hFirst b (by rw [hBufs]; rfl)
      have hFull := hStored.filled b (by rw [hFilled]; exact List.mem_cons_self)
      refine ⟨b, _, hBufs, ?_, hPos, hStart, hLow, by omega, Or.inr (by omega)⟩
      simp only [RecvState.firstBuf, hBufs, List.head_cons]

/-- The parser sees the batch up to the end of the first buffer. -/
theorem Receives.unread (h : u.Receives mem rv s) :
    s.firstBuf.unread s.mem = u.batch.take defaultBufSize := by
  obtain ⟨b, rest, hBufs, hBuf, hPos, -, hLow, hHigh, hFull⟩ := h.first
  have hBytes := h.stored.1.bytes
  have hLength : (slice s.mem b.start b.last).length ≤ defaultBufSize := by
    rw [length_slice]
    omega
  rw [hBufs, storedBytes, List.flatMap_cons, ← storedBytes] at hBytes
  rw [hBuf, LtBuffer.unread, hPos, ← hBytes]
  rcases hFull with rfl | hFull
  · rw [storedBytes, List.flatMap_nil, List.append_nil, List.take_of_length_le hLength]
  · rw [List.take_append_of_le_length (by rw [length_slice]; omega), List.take_of_length_le hLength]

theorem Receives.pos_eq (h : u.Receives mem rv s) : ∀ b ∈ s.bufs, b.pos = b.start := by
  intro b hb
  obtain ⟨i, hi⟩ := List.mem_iff_getElem?.mp hb
  exact (h.stored.2.starts i b hi).2.1

/-- What the buffers hold to be written is the batch. -/
theorem Receives.unwritten (h : u.Receives mem rv s) :
    iovBytes s.mem (s.bufs.map LtBuffer.iovec) = u.batch := by
  have hPos := h.pos_eq
  have hPlaced := h.placed
  rw [← h.stored.1.bytes, iovBytes, storedBytes, List.flatMap_map]
  refine List.flatMap_congr fun b hb => ?_
  have hBounds := hPlaced.bounds b hb
  have hFits := hPlaced.fits b hb
  rw [LtBuffer.iovec_len hBounds.2.1 (by omega), LtBuffer.size, LtBuffer.iovec, hPos b hb]
  simp only
  rw [Nat.add_sub_cancel' (hBounds.1.trans hBounds.2.1)]

theorem Receives.size_eq (h : u.Receives mem rv s) : totalSize s.bufs = u.batch.length := by
  rw [← length_iovBytes_buffers s.mem h.placed, h.unwritten]

/-- A batch that fits the first buffer leaves nothing for the others. -/
theorem Receives.small (h : u.Receives mem rv s) {b : LtBuffer} {rest : List LtBuffer} (hBufs : s.bufs = b :: rest)
    (hSmall : u.batch.length ≤ defaultBufSize) : totalSize rest = 0 := by
  obtain ⟨b', rest', hBufs', -, hPos, -, hLow, hHigh, hFull⟩ := h.first
  rw [hBufs] at hBufs'
  cases hBufs'
  rcases hFull with rfl | hFull
  · rfl
  · have hTotal := h.size_eq
    rw [hBufs, totalSize_cons, LtBuffer.size] at hTotal
    omega

/-- The buffers behind the head: the rest of the batch is in the first one. A batch that
fits one buffer may have filled it, so that an empty one is linked behind. -/
theorem Receives.behind (hRecv : u.Receives mem rv r) (hSmall : u.batch.length ≤ defaultBufSize)
    {w rest : List UInt8} (hBatch : u.batch = w ++ rest) {mem' : Mem}
    (hFrame : ∀ y, r.firstBuf.pos + w.length ≤ y → mem' y = r.mem y) :
    ∃ b tail, b = { r.firstBuf with pos := r.firstBuf.pos + w.length } ∧ r.bufs.tail = tail ∧
      WellPlaced (b :: tail) ∧ totalSize tail = 0 ∧ (∀ t ∈ tail, t.pos = t.start) ∧
      totalSize (b :: tail) ≤ u.batch.length ∧ iovBytes mem' ((b :: tail).map LtBuffer.iovec) = rest := by
  obtain ⟨b, tail, hBufs, hBuf, hPos, -, hLow, hHigh, -⟩ := hRecv.first
  have hUnread := hRecv.unread
  rw [List.take_of_length_le hSmall, hBatch] at hUnread
  have hLength := congrArg List.length hUnread
  rw [LtBuffer.unread, length_slice, List.length_append, hBuf] at hLength
  have hPlaced := hRecv.placed
  have hAll := hRecv.pos_eq
  have hTotal := hRecv.size_eq
  have hTail := hRecv.small hBufs hSmall
  rw [hBufs] at hPlaced hAll hTotal
  rw [List.forall_mem_cons] at hAll
  rw [hBuf] at hFrame ⊢
  have hAdvanced : WellPlaced ({ b with pos := b.pos + w.length } :: tail) := by
    refine ⟨List.forall_mem_cons.mpr ⟨?_, (List.forall_mem_cons.mp hPlaced.bounds).2⟩,
      List.forall_mem_cons.mpr (List.forall_mem_cons.mp hPlaced.fits), ?_⟩
    · simp only
      unfold defaultBufSize at hHigh
      omega
    · exact List.pairwise_cons.mpr (List.pairwise_cons.mp hPlaced.apart)
  refine ⟨_, tail, rfl, by rw [hBufs, List.tail_cons], hAdvanced, hTail, hAll.2, ?_, ?_⟩
  · rw [totalSize_cons, hTail, LtBuffer.size, hBatch, List.length_append]
    simp only
    omega
  · have hNil : iovBytes mem' (tail.map LtBuffer.iovec) = [] := by
      have hRest : WellPlaced tail :=
        ⟨(List.forall_mem_cons.mp hPlaced.bounds).2, (List.forall_mem_cons.mp hPlaced.fits).2,
          (List.pairwise_cons.mp hPlaced.apart).2⟩
      exact List.eq_nil_of_length_eq_zero ((length_iovBytes_buffers _ hRest).trans hTail)
    have hBounds := hAdvanced.bounds _ List.mem_cons_self
    have hFits := hAdvanced.fits _ List.mem_cons_self
    rw [List.map_cons, iovBytes, List.flatMap_cons, ← iovBytes, hNil, List.append_nil,
      LtBuffer.iovec_len hBounds.2.1 (by omega), LtBuffer.size,
      LtBuffer.iovec]
    simp only at hBounds ⊢
    rw [Nat.add_sub_cancel' hBounds.2.1, slice_congr fun y hy _ => hFrame y hy]
    rw [hBuf] at hUnread
    exact (slice_eq_append hUnread).2

end Delivery

theorem single_few : 1 ≤ 1 := Nat.le_refl 1

def rowDelivery (deliveries : List (List UInt8)) (hFits : Deliverable defaultBufSize deliveries)
    (hFew : deliveries.length ≤ 1) : Delivery where
  fresh i := 1 + i * (defaultBufSize + 1)
  deliveries := deliveries
  last := .eagain
  last_ends := nofun
  fits := hFits
  apart i j hLt := Or.inl (by
    have hNext : (i + 1) * (defaultBufSize + 1) ≤ j * (defaultBufSize + 1) := Nat.mul_le_mul_right _ hLt
    rw [Nat.succ_mul] at hNext
    omega)
  bounded i hi := by
    have hLast : i * (defaultBufSize + 1) ≤ 1 * (defaultBufSize + 1) := Nat.mul_le_mul_right _ (hi.trans hFew)
    unfold defaultBufSize at hLast ⊢
    omega

end Leactor
