import Leactor.Basic

/-! The buffers of buffer_op_lea.c: `lt_new_buffer`, `lt_new_buffer_chain` and
`lt_recv`, which fills a buffer and links a new one behind it when it is full. -/
namespace Leactor

open Scan Memory

def defaultBufSize : Nat := 16384

def defaultHeaderBufferSize : Nat := 16384

/-- `lt_new_buffer` on the block at `addr`. -/
def ltNewBuffer (addr : Nat) : LtBuffer where
  start := addr
  pos := addr
  last := addr
  end_ := addr + defaultBufSize

section Buffers

-- The addresses of the blocks that `lt_alloc` returns one after another.
variable (fresh : Nat → Nat)

/-- The loop of `lt_new_buffer_chain`, with the `i`-th block next. -/
def newBuffers (size now i : Nat) : List LtBuffer :=
  if now < size then ltNewBuffer (fresh i) :: newBuffers size (now + defaultBufSize) (i + 1) else []
  termination_by size - now
  decreasing_by
    unfold defaultBufSize
    omega

/-- `lt_new_buffer_chain`: the buffers in the order of their links. -/
def ltNewBufferChain (size : Nat) : List LtBuffer :=
  ltNewBuffer (fresh 0) :: newBuffers fresh size defaultBufSize 1

/-- What `recv` does: it delivers bytes, reports the end, or fails with an `errno`. -/
inductive RecvResult where
  | data (w : List UInt8)
  | closed
  | eagain
  | error

/-- The locals of `lt_recv` and the memory. `filled` are the buffers that
`lt_buf` has left behind, each linked to the next one and the last to `buf`. -/
structure RecvState where
  mem : Mem
  filled : List LtBuffer
  buf : LtBuffer
  recvLen : Nat

def RecvState.bufs (s : RecvState) : List LtBuffer := s.filled ++ [s.buf]

/-- `lt_buf->end - lt_buf->last`, how much `recv` is asked for. -/
def RecvState.length (s : RecvState) : Nat := s.buf.end_ - s.buf.last

/-- `lt_recv` before its first `recv`, on the buffer `buf`. -/
def RecvState.enter (mem : Mem) (buf : LtBuffer) : RecvState := ⟨mem, [], buf, 0⟩

/-- One turn of the loop of `lt_recv`: it halts with the return value. -/
def recvStep : Machine RecvResult RecvState (Int × RecvState) := fun _ s result =>
  match result with
  | .closed => .halt (Res.lclose.code, s)
  | .error => .halt (Res.lerror.code, s)
  | .eagain => .halt (if 0 < s.recvLen then (s.recvLen : Int) else Res.lagain.code, s)
  | .data w =>
      let buf := { s.buf with last := s.buf.last + w.length }
      let t := { s with mem := place s.mem s.buf.last w, buf := buf, recvLen := s.recvLen + w.length }
      if w.length = s.length then
        .next { t with filled := s.filled ++ [buf], buf := ltNewBuffer (fresh (s.filled.length + 1)) }
      else .next t

def BlocksApart : Prop :=
  ∀ i j, i < j → fresh i + defaultBufSize ≤ fresh j ∨ fresh j + defaultBufSize ≤ fresh i

/-- Deliveries of `recv`, each of at least one byte and no more than there is room for. -/
def Deliverable : Nat → List (List UInt8) → Prop
  | _, [] => True
  | room, w :: ws =>
      1 ≤ w.length ∧ w.length ≤ room ∧
        Deliverable (if w.length = room then defaultBufSize else room - w.length) ws

def storedBytes (mem : Mem) (bufs : List LtBuffer) : List UInt8 :=
  bufs.flatMap fun b => slice mem b.start b.last

/-- The bytes `w` are stored in the buffers, which are full except for the last. -/
structure Stored (w : List UInt8) (s : RecvState) : Prop where
  bytes : storedBytes s.mem s.bufs = w
  filled : ∀ b ∈ s.filled, b.last = b.end_
  room : s.buf.last < s.buf.end_
  count : s.recvLen = w.length

structure InBlocks (s : RecvState) : Prop where
  starts : ∀ i b, s.bufs[i]? = some b → b.start = fresh i ∧ b.pos = b.start ∧ b.start ≤ b.last ∧
    b.last ≤ b.end_ ∧ b.end_ = b.start + defaultBufSize

theorem storedBytes_append (mem : Mem) (bufs : List LtBuffer) (b : LtBuffer) :
    storedBytes mem (bufs ++ [b]) = storedBytes mem bufs ++ slice mem b.start b.last := by
  simp [storedBytes]

/-- What a delivery adds to the bytes of the buffers. -/
theorem storedBytes_deliver {fresh : Nat → Nat} (hApart : BlocksApart fresh) {s : RecvState} {w : List UInt8}
    (hBlocks : InBlocks fresh s) (hFull : ∀ b ∈ s.filled, b.last = b.end_) (hw : w.length ≤ s.length) :
    storedBytes (place s.mem s.buf.last w) (s.filled ++ [{ s.buf with last := s.buf.last + w.length }]) =
      storedBytes s.mem s.bufs ++ w := by
  obtain ⟨hStart, -, hLow, hHigh, hEnd⟩ := hBlocks.starts s.filled.length s.buf (by simp [RecvState.bufs])
  unfold RecvState.length at hw
  have hFront : storedBytes (place s.mem s.buf.last w) s.filled = storedBytes s.mem s.filled := by
    refine List.flatMap_congr fun b hb => ?_
    obtain ⟨i, hi, rfl⟩ := List.mem_iff_getElem.mp hb
    obtain ⟨hStart', -, -, -, hEnd'⟩ := hBlocks.starts i s.filled[i]
      (by rw [RecvState.bufs, List.getElem?_append_left hi, List.getElem?_eq_getElem hi])
    have hFullHere := hFull _ hb
    have hSep := hApart i s.filled.length hi
    exact slice_place_of_disjoint (by omega)
  have hLast : slice (place s.mem s.buf.last w) s.buf.start (s.buf.last + w.length) =
      slice s.mem s.buf.start s.buf.last ++ w := by
    rw [← slice_append hLow (Nat.le_add_right _ _), slice_place,
      slice_place_of_disjoint (Or.inl (Nat.le_refl _))]
  rw [storedBytes_append, hFront, hLast, RecvState.bufs, storedBytes_append, List.append_assoc]

theorem InBlocks.push {fresh : Nat → Nat} {s : RecvState} {w : List UInt8} (h : InBlocks fresh s)
    (hw : w.length ≤ s.length) (mem : Mem) (n : Nat) :
    InBlocks fresh ⟨mem, s.filled, { s.buf with last := s.buf.last + w.length }, n⟩ := by
  refine ⟨fun i b hb => ?_⟩
  have hOld := h.starts s.filled.length s.buf (by simp [RecvState.bufs])
  unfold RecvState.length at hw
  rw [RecvState.bufs] at hb
  rcases Nat.lt_or_ge i s.filled.length with hi | hi
  · rw [List.getElem?_append_left hi] at hb
    exact h.starts i b (by rwa [RecvState.bufs, List.getElem?_append_left hi])
  · rw [List.getElem?_append_right hi, List.getElem?_singleton] at hb
    split_ifs at hb with hZero
    cases hb
    obtain rfl : i = s.filled.length := by omega
    simp only
    omega

/-- A delivery that fits is stored, and leaves room. Where it fills the buffer a new one
is linked, and `recv` is asked for that much next. -/
theorem recvStep_data {fresh : Nat → Nat} (hApart : BlocksApart fresh) {s : RecvState} {v w : List UInt8}
    (hStored : Stored v s) (hBlocks : InBlocks fresh s) (hw : w.length ≤ s.length) :
    ∃ t, (∀ p, recvStep fresh p s (.data w) = .next t) ∧ Stored (v ++ w) t ∧ InBlocks fresh t ∧
      t.length = if w.length = s.length then defaultBufSize else s.length - w.length := by
  have hBytes := storedBytes_deliver hApart hBlocks hStored.filled hw
  rw [hStored.bytes] at hBytes
  have hRoom := hStored.room
  have hCount : s.recvLen + w.length = (v ++ w).length := by
    rw [hStored.count, List.length_append]
  have hPush := hBlocks.push hw (place s.mem s.buf.last w) (s.recvLen + w.length)
  unfold RecvState.length at hw ⊢
  by_cases hFull : w.length = s.buf.end_ - s.buf.last
  · refine ⟨_, fun p => if_pos hFull, ⟨?_, ?_, ?_, hCount⟩, ⟨?_⟩, ?_⟩
    · rw [RecvState.bufs, storedBytes_append, ltNewBuffer, slice_self, List.append_nil]
      exact hBytes
    · intro b hb
      rcases List.mem_append.mp hb with hb | hb
      · exact hStored.filled b hb
      · rw [List.mem_singleton.mp hb]
        simp only
        omega
    · simp [ltNewBuffer, defaultBufSize]
    · intro i b hb
      rw [RecvState.bufs] at hb
      rcases Nat.lt_or_ge i (s.filled.length + 1) with hi | hi
      · rw [List.getElem?_append_left (by simpa using hi)] at hb
        exact hPush.starts i b hb
      · rw [List.getElem?_append_right (by simpa using hi), List.getElem?_singleton] at hb
        simp only [List.length_append, List.length_singleton] at hb
        split_ifs at hb with hZero
        cases hb
        obtain rfl : i = s.filled.length + 1 := by omega
        simp [ltNewBuffer]
    · rw [if_pos hFull]
      simp [ltNewBuffer]
  · refine ⟨_, fun p => if_neg hFull, ⟨hBytes, hStored.filled, ?_, hCount⟩, hPush, ?_⟩
    · simp only
      omega
    · rw [if_neg hFull]
      simp only
      omega

/-- A row of deliveries is stored. -/
theorem run_deliveries {fresh : Nat → Nat} (hApart : BlocksApart fresh) {s : RecvState} {v : List UInt8}
    {ws : List (List UInt8)} (p : Nat) (hStored : Stored v s) (hBlocks : InBlocks fresh s)
    (hFit : Deliverable s.length ws) :
    ∃ t, run (recvStep fresh) p s (ws.map .data) = .pending t ∧ Stored (v ++ ws.flatten) t ∧
      InBlocks fresh t := by
  induction ws generalizing s v p with
  | nil => exact ⟨s, rfl, by simpa using hStored, hBlocks⟩
  | cons w ws ih =>
      obtain ⟨-, hw, hRest⟩ := hFit
      obtain ⟨t, hStep, hNext, hPlaces, hLength⟩ := recvStep_data hApart hStored hBlocks hw
      rw [← hLength] at hRest
      obtain ⟨u, hRun, hEnd, hLast⟩ := ih (p + 1) hNext hPlaces hRest
      refine ⟨u, ?_, ?_, hLast⟩
      · rw [List.map_cons, run_cons_next _ (hStep p)]
        exact hRun
      · rwa [List.flatten_cons, ← List.append_assoc]

theorem Deliverable.take {room : Nat} {ws : List (List UInt8)} (h : Deliverable room ws) (k : Nat) :
    Deliverable room (ws.take k) := by
  induction ws generalizing room k with
  | nil => simpa using h
  | cons w ws ih =>
      cases k with
      | zero => trivial
      | succ k => exact ⟨h.1, h.2.1, ih h.2.2 k⟩

theorem ltNewBufferChain_single (fresh : Nat → Nat) :
    ltNewBufferChain fresh defaultHeaderBufferSize = [ltNewBuffer (fresh 0)] := by
  rw [ltNewBufferChain, newBuffers, if_neg (by decide)]

theorem enter_stored (fresh : Nat → Nat) (mem : Mem) :
    Stored [] (.enter mem (ltNewBuffer (fresh 0))) ∧ InBlocks fresh (.enter mem (ltNewBuffer (fresh 0))) := by
  refine ⟨⟨?_, nofun, ?_, rfl⟩, ⟨?_⟩⟩
  · simp [storedBytes, RecvState.bufs, RecvState.enter, ltNewBuffer]
  · simp [RecvState.enter, ltNewBuffer, defaultBufSize]
  · intro i b hb
    simp only [RecvState.bufs, RecvState.enter, List.nil_append, List.getElem?_singleton] at hb
    split_ifs at hb with hZero
    cases hb
    rw [hZero]
    simp [ltNewBuffer]

/-- `lt_recv` stores what it received, in buffers that are full up to the last one. It
asks for at least one byte in every turn, and comes back at the first answer without
data. -/
theorem ltRecv_stores {fresh : Nat → Nat} (hApart : BlocksApart fresh) (mem : Mem)
    {ws : List (List UInt8)} (hFit : Deliverable defaultBufSize ws) {last : RecvResult}
    (hLast : ∀ w, last ≠ .data w) :
    ∃ buf, ltNewBufferChain fresh defaultHeaderBufferSize = [buf] ∧
      (∀ k, ∃ t, run (recvStep fresh) 0 (.enter mem buf) ((ws.take k).map .data) = .pending t ∧
        0 < t.length) ∧
      ∃ rv s, run (recvStep fresh) 0 (.enter mem buf) (ws.map .data ++ [last]) =
          .halted ws.length (rv, s) ∧
        s.bufs.head?.map LtBuffer.start = some buf.start ∧
        storedBytes s.mem s.bufs = ws.flatten ∧ (∀ b ∈ s.filled, b.last = b.end_) ∧
        s.buf.last < s.buf.end_ ∧ (0 < rv → rv = ws.flatten.length) := by
  obtain ⟨hStored, hBlocks⟩ := enter_stored fresh mem
  have hRoom : (RecvState.enter mem (ltNewBuffer (fresh 0))).length = defaultBufSize := by
    simp [RecvState.length, RecvState.enter, ltNewBuffer]
  refine ⟨ltNewBuffer (fresh 0), ltNewBufferChain_single fresh, fun k => ?_, ?_⟩
  · obtain ⟨t, hRun, hNext, -⟩ := run_deliveries hApart 0 hStored hBlocks (by rw [hRoom]; exact hFit.take k)
    exact ⟨t, hRun, Nat.sub_pos_of_lt hNext.room⟩
  · obtain ⟨s, hRun, hEnd, hPlaces⟩ := run_deliveries hApart 0 hStored hBlocks (by rwa [hRoom])
    rw [List.nil_append] at hEnd
    have hStop : ∃ rv : Int, recvStep fresh ws.length s last = .halt (rv, s) ∧
        (0 < rv → rv = ws.flatten.length) := by
      cases last with
      | data w => exact absurd rfl (hLast w)
      | closed => exact ⟨_, rfl, fun h => absurd h (by decide)⟩
      | error => exact ⟨_, rfl, fun h => absurd h (by decide)⟩
      | eagain =>
          refine ⟨_, rfl, ?_⟩
          rw [hEnd.count]
          split_ifs with hPos
          · exact fun _ => rfl
          · exact fun h => absurd h (by decide)
    obtain ⟨rv, hHalt, hCount⟩ := hStop
    refine ⟨rv, s, ?_, ?_, hEnd.bytes, hEnd.filled, hEnd.room, hCount⟩
    · rw [run_append_of_pending _ hRun, Nat.zero_add, List.length_map]
      exact run_cons_halt _ hHalt
    · rw [List.head?_eq_getElem?]
      cases hHead : s.bufs[0]? with
      | none => simp [RecvState.bufs] at hHead
      | some b =>
          rw [Option.map_some, (hPlaces.starts 0 b hHead).1]
          rfl

end Buffers

/-- Two deliveries into blocks that stand in a row. -/
theorem ltRecv_stores_row :
    ∃ buf, ltNewBufferChain (fun i => 1 + i * defaultBufSize) defaultHeaderBufferSize = [buf] ∧
      (∀ k, ∃ t, run (recvStep fun i => 1 + i * defaultBufSize) 0 (.enter (fun _ => 0) buf)
        (([[1, 2], [3]].take k).map .data) = .pending t ∧ 0 < t.length) ∧
      ∃ rv s, run (recvStep fun i => 1 + i * defaultBufSize) 0 (.enter (fun _ => 0) buf)
          ([[1, 2], [3]].map .data ++ [.eagain]) = .halted 2 (rv, s) ∧
        s.bufs.head?.map LtBuffer.start = some buf.start ∧
        storedBytes s.mem s.bufs = [1, 2, 3] ∧ (∀ b ∈ s.filled, b.last = b.end_) ∧
        s.buf.last < s.buf.end_ ∧ (0 < rv → rv = 3) :=
  ltRecv_stores (fun i j hij => Or.inl (by unfold defaultBufSize; omega)) (fun _ => 0)
    (by simp [Deliverable, defaultBufSize]) (by simp)

end Leactor
