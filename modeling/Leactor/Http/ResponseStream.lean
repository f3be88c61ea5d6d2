import Leactor.Http.ResponseText

/-! A response on its way to the client: wake-ups of the upstream socket, one after
another, with a client that takes every byte it is offered. -/
namespace Leactor

open Ascii Scan Loop Memory

/-- The client's socket accepts all bytes offered. -/
structure ProxyWakeUp.TakesEverything (u : ProxyWakeUp) : Prop where
  head : ∀ w, w ≠ [] → u.writevHead w = .wrote w.length
  body : ∀ w, w ≠ [] → u.writevBody w = .wrote w.length

section Body

variable {u : ProxyWakeUp} {mem : Mem} {bufs : List LtBuffer} {b : LtBuffer}

/-- The unread rest of the buffers is sent, whichever way `send_buffers` ends. -/
theorem sendsBody_eq (hTakes : u.TakesEverything) (hPlaced : WellPlaced (b :: bufs))
    (hFirst : b.pos = b.last → totalSize bufs = 0) {c c' : ProxyConn} (h : SendsBody u mem (b :: bufs) c c') :
    c' = { c with sent := c.sent ++ iovBytes mem ((b :: bufs).map LtBuffer.iovec) } := by
  obtain ⟨res, bufs', -, rfl⟩ := h
  have hLength := length_iovBytes_buffers mem hPlaced
  congr 2
  by_cases hEmpty : b.pos = b.last
  · rw [totalSize_cons, hFirst hEmpty, LtBuffer.size, hEmpty, Nat.sub_self] at hLength
    rw [List.eq_nil_of_length_eq_zero hLength, List.take_nil]
  · have hNe : iovBytes mem ((b :: bufs).map LtBuffer.iovec) ≠ [] := by
      have hBounds := hPlaced.bounds b List.mem_cons_self
      refine List.ne_nil_of_length_pos ?_
      rw [hLength, totalSize_cons, LtBuffer.size]
      omega
    rw [hTakes.body _ hNe, bytesWritten, if_neg (by simpa using hEmpty), WritevOutcome.count, List.take_length]

theorem exists_sendsBody (mem : Mem) (hTakes : u.TakesEverything) (hPlaced : WellPlaced (b :: bufs))
    (hEnd : EndsAtBuffer (totalSize (b :: bufs)) (b :: bufs)) (hBound : totalSize (b :: bufs) < 2 ^ 31)
    (c : ProxyConn) : ∃ c', SendsBody u mem (b :: bufs) c c' := by
  by_cases hEmpty : b.pos = b.last
  · exact ⟨_, .lok, b :: bufs, if_pos hEmpty, rfl⟩
  · have hLength := length_iovBytes_buffers mem hPlaced
    have hNe : iovBytes mem ((b :: bufs).map LtBuffer.iovec) ≠ [] := by
      have hBounds := hPlaced.bounds b List.mem_cons_self
      refine List.ne_nil_of_length_pos ?_
      rw [hLength, totalSize_cons, LtBuffer.size]
      omega
    obtain ⟨bufs', hSend⟩ := sendBuffers_whole hPlaced hEmpty hEnd hBound
    refine ⟨_, .lok, bufs', ?_, rfl⟩
    rw [hTakes.body _ hNe, hLength]
    exact hSend

end Body

/-- A wake-up comes back, and whichever way it does it has sent the bytes `w`. -/
def Advances (u : ProxyWakeUp) (c : ProxyConn) (w : List UInt8) (P : Int → Prop) : Prop :=
  (∃ k c', ProxyDataComing u c k c') ∧ ∀ k c', ProxyDataComing u c k c' → c'.sent = c.sent ++ w ∧ P c'.status

namespace ProxyWakeUp

variable {u : ProxyWakeUp} {mem : Mem} {rv : Int} {r : RecvState} {c : ProxyConn}

/-- An empty wake-up before the response leaves the connection waiting. -/
theorem waits_advances (hNil : u.batch = []) (hLast : u.last = .eagain) (c : ProxyConn) :
    Advances u c [] (· = lProxyWaitingResponse) := by
  refine ⟨exists_empty hNil c, fun k c' hCall => ?_⟩
  obtain ⟨-, hStatus, hSent⟩ := hCall.empty hNil hLast
  exact ⟨hSent.trans (List.append_nil _).symm, hStatus⟩

/-- Behind the response any wake-up without data will do. -/
theorem ends_advances (hNil : u.batch = []) (c : ProxyConn) : Advances u c [] fun _ => True := by
  refine ⟨exists_empty hNil c, fun k c' hCall => ⟨?_, trivial⟩⟩
  rw [List.append_nil]
  by_cases hLast : u.last = .eagain
  · exact (hCall.empty hNil hLast).2.2
  · exact (hCall.end hLast).2

/-- A batch of the body is relayed. The status is one behind a head that was written,
and no byte of the batch is looked at. -/
theorem body_advances (hTakes : u.TakesEverything) (hLast : u.last = .eagain) (hNe : u.batch ≠ [])
    (hBound : u.batch.length < 2 ^ 31) (hWrote : c.status = lHttpWroteResponseHeader) :
    Advances u c u.batch (· = lHttpWroteResponseHeader) := by
  have hBehind : ∀ rv r, u.Receives c.mem rv r → statusBehindRecv rv c.status = lHttpWroteResponseHeader :=
    fun rv r hRecv => (hRecv.status_eagain hLast _).trans ((if_neg hNe).trans hWrote)
  constructor
  · obtain ⟨rv, r, hRecv⟩ := u.receives c.mem
    obtain ⟨b, rest, hBufs, -⟩ := hRecv.first
    have hPlaced := hRecv.placed
    have hPos := hRecv.pos_eq
    have hTotal := hRecv.size_eq
    rw [hBufs] at hPlaced hPos hTotal
    rw [List.forall_mem_cons] at hPos
    obtain ⟨c', hBody⟩ := exists_sendsBody r.mem hTakes hPlaced
      (endsAtBuffer_total hPos.2 (Or.inr (Or.inr hPos.1))) (hTotal.trans_lt hBound)
      { c.setStatus (statusBehindRecv rv c.status) with mem := r.mem }
    exact ⟨_, c', .relayed hRecv (hBehind rv r hRecv) (by rwa [hBufs])⟩
  · intro k c' hCall
    cases hCall with
    | parsed hRecv hStatus => exact absurd ((hBehind _ _ hRecv).symm.trans hStatus) (by decide)
    | begun hRecv hStatus => exact absurd ((hBehind _ _ hRecv).symm.trans hStatus) (by decide)
    | dropped hRecv _ hOther => exact absurd (hBehind _ _ hRecv) hOther
    | @relayed rv r _ hRecv hStatus hBody =>
        obtain ⟨b, rest, hBufs, -, hPos, -, -, -, hFull⟩ := hRecv.first
        have hPlaced := hRecv.placed
        have hUnwritten := hRecv.unwritten
        rw [hBufs] at hPlaced hUnwritten hBody
        have hSame := sendsBody_eq hTakes hPlaced (fun hEmpty => ?_) hBody
        · rw [hSame, hUnwritten]
          exact ⟨rfl, hStatus⟩
        · rcases hFull with rfl | hFull
          · rfl
          · unfold defaultBufSize at hFull
            omega

/-- A wake-up that brings the whole head: in its first buffer, which holds all of its
batch, to a request whose digits are not yet counted. -/
structure HoldsHead (x : ResponseHead) (u : ProxyWakeUp) : Prop where
  whole : x.bytes <+: u.batch
  small : u.batch.length ≤ defaultBufSize
  kept : ∀ l ∈ x.lines, l.Kept
  count : u.req.status.count = 0
  link : (u.chains (2 * x.lines.length)).next = none

/-- The head is accepted, and its chain has NULL behind the last node. -/
theorem HoldsHead.builds {x : ResponseHead} (h : HoldsHead x u) (hRecv : u.Receives mem rv r) :
    ∃ h' first chains bufs, AcceptsResponse (u.head r) h' ∧
      constructResponseChains h' ⟨[], u.chains⟩ = some (first, chains) ∧
      outVec chains first = some (bufs, none) ∧ iovBytes h'.mem bufs = x.lowerBytes ∧
      h'.buf = { r.firstBuf with pos := r.firstBuf.pos + x.bytes.length } ∧
      ∀ y, r.firstBuf.pos + x.bytes.length ≤ y → h'.mem y = r.mem y := by
  obtain ⟨rest, hRest⟩ := h.whole
  have hUnread : (u.head r).buf.unread (u.head r).mem = x.bytes ++ rest := by
    rw [hRecv.head_unread, List.take_of_length_le h.small, hRest]
  have hSize := congrArg List.length hUnread
  have hSmall := h.small
  rw [LtBuffer.unread, length_slice, hRest] at hSize
  unfold defaultBufSize at hSmall
  obtain ⟨h', base, fields, hAccepts, hBuf, hFrame, hList, hFields, hBytes⟩ :=
    x.accepted h.kept rfl h.count hUnread (by omega)
  have hLines := List.length_pos_iff.mpr x.lines_ne
  obtain ⟨chains, hConstruct, hChain⟩ := constructResponseChains_built ⟨[], u.chains⟩ hList
    (List.ne_nil_of_length_pos (by omega))
  have hFresh := hChain.row.fresh
  have hVec := hChain.outVec (by simp [responseIovecs])
  rw [hFresh, responseIovecs, List.length_append, length_elementIovecs, List.length_singleton, hFields,
    show Arena.fresh ⟨[], u.chains⟩ = 0 from rfl, Nat.zero_add, Nat.add_sub_cancel_left, h.link] at hVec
  exact ⟨h', _, chains, _, hAccepts, hConstruct, hVec, hBytes, hBuf, fun y hy => hFrame y (Or.inr hy)⟩

theorem lowerBytes_ne (x : ResponseHead) : x.lowerBytes ≠ [] := by
  simp [ResponseHead.lowerBytes]

/-- The head is accepted and sent. -/
theorem HoldsHead.accepts {x : ResponseHead} (h : HoldsHead x u) (hTakes : u.TakesEverything)
    (hRecv : u.Receives mem rv r) (c : ProxyConn) :
    ∃ h', AcceptsResponse (u.head r) h' ∧
      httpSendToClient u h' c = some { c.setStatus lHttpWroteResponseHeader with sent := c.sent ++ x.lowerBytes } ∧
      h'.buf = { r.firstBuf with pos := r.firstBuf.pos + x.bytes.length } ∧
      ∀ y, r.firstBuf.pos + x.bytes.length ≤ y → h'.mem y = r.mem y := by
  obtain ⟨h', first, chains, bufs, hAccepts, hConstruct, hVec, hBytes, hBuf, hFrame⟩ := h.builds hRecv
  have hNe := lowerBytes_ne x
  exact ⟨h', hAccepts, httpSendToClient_whole hConstruct hVec hBytes hNe (hTakes.head _ hNe), hBuf, hFrame⟩

/-- The wake-up that brings the head sends it, and the rest of its batch behind it. The
rest begins in the buffer in which the head ends. -/
theorem HoldsHead.head_advances {x : ResponseHead} {rest : List UInt8} (h : HoldsHead x u)
    (hTakes : u.TakesEverything) (hLast : u.last = .eagain) (hWaits : c.status = lProxyWaitingResponse)
    (hBatch : u.batch = x.bytes ++ rest) :
    Advances u c (x.lowerBytes ++ rest) (· = lHttpWroteResponseHeader) := by
  have hNe : u.batch ≠ [] := by simp [hBatch, ResponseHead.bytes]
  have hBehind : ∀ rv r, u.Receives c.mem rv r → statusBehindRecv rv c.status = lProxyWaitingResponse :=
    fun rv r hRecv => (hRecv.status_eagain hLast _).trans ((if_neg hNe).trans hWaits)
  have hSmall := h.small
  unfold defaultBufSize at hSmall
  constructor
  · obtain ⟨rv, r, hRecv⟩ := u.receives c.mem
    obtain ⟨h', hAccepts, hSend, hBuf, hFrame⟩ := h.accepts hTakes hRecv (c.setStatus (statusBehindRecv rv c.status))
    obtain ⟨b, tail, hFirst, hTail, hPlaced, hZero, hPos, hLe, -⟩ := hRecv.behind h.small hBatch hFrame
    obtain ⟨c', hBody⟩ := exists_sendsBody h'.mem hTakes hPlaced
      (endsAtBuffer_total hPos (Or.inr (Or.inl hZero))) (by omega)
      ({ pair := (c.setStatus lHttpWroteResponseHeader).pair, mem := h'.mem, sent := c.sent ++ x.lowerBytes } : ProxyConn)
    refine ⟨_, c', .begun hRecv (hBehind rv r hRecv) (.finished hAccepts hSend) rfl ?_⟩
    rw [hBuf, ← hFirst, hTail]
    exact hBody
  · intro k c' hCall
    cases hCall with
    | relayed hRecv hStatus => exact absurd ((hBehind _ _ hRecv).symm.trans hStatus) (by decide)
    | dropped hRecv hStatus => exact absurd (hBehind _ _ hRecv) hStatus
    | parsed hRecv _ hLine hOther =>
        obtain ⟨h', hAccepts, hSend, -, -⟩ := h.accepts hTakes hRecv (c.setStatus (statusBehindRecv _ c.status))
        obtain ⟨-, hSend'⟩ := hLine.of_accepts hAccepts
        rw [hSend] at hSend'
        cases hSend'
        exact absurd rfl hOther
    | begun hRecv _ hLine _ hBody =>
        obtain ⟨h', hAccepts, hSend, hBuf, hFrame⟩ :=
          h.accepts hTakes hRecv (c.setStatus (statusBehindRecv _ c.status))
        obtain ⟨rfl, hSend'⟩ := hLine.of_accepts hAccepts
        rw [hSend] at hSend'
        cases hSend'
        obtain ⟨b, tail, hFirst, hTail, hPlaced, hZero, -, -, hBytes⟩ := hRecv.behind h.small hBatch hFrame
        rw [hBuf, ← hFirst, hTail] at hBody
        rw [sendsBody_eq hTakes hPlaced (fun _ => hZero) hBody, hBytes]
        exact ⟨List.append_assoc _ _ _, rfl⟩

end ProxyWakeUp

inductive Wakes : ProxyConn → List ProxyWakeUp → ProxyConn → Prop where
  | nil (c : ProxyConn) : Wakes c [] c
  | cons {u : ProxyWakeUp} {us : List ProxyWakeUp} {k : Handling} {c c' c'' : ProxyConn}
      (hCall : ProxyDataComing u c k c') (hRest : Wakes c' us c'') : Wakes c (u :: us) c''

def DeliversAll (c : ProxyConn) (us : List ProxyWakeUp) (w : List UInt8) : Prop :=
  (∃ c', Wakes c us c') ∧ ∀ c', Wakes c us c' → c'.sent = c.sent ++ w

/-- Wake-ups without data until one brings the whole head; then data in every wake-up,
none of which meets the end, until the response is complete. -/
def CutInPlace (x : ResponseHead) (us : List ProxyWakeUp) : Prop :=
  ∃ waits first later ends, us = waits ++ first :: (later ++ ends) ∧
    (∀ u ∈ waits, u.batch = [] ∧ u.last = .eagain) ∧
    (first.HoldsHead x ∧ first.last = .eagain) ∧
    (∀ u ∈ later, u.last = .eagain ∧ u.batch ≠ [] ∧ u.batch.length < 2 ^ 31) ∧
    ∀ u ∈ ends, u.batch = []

section Run

variable {u : ProxyWakeUp} {us : List ProxyWakeUp} {c : ProxyConn} {w w' : List UInt8}

theorem deliversAll_nil (c : ProxyConn) : DeliversAll c [] [] := by
  refine ⟨⟨c, .nil c⟩, fun c' hWakes => ?_⟩
  cases hWakes
  exact (List.append_nil _).symm

theorem Advances.cons {P : Int → Prop} (h : Advances u c w P) (hRest : ∀ c', P c'.status → DeliversAll c' us w') :
    DeliversAll c (u :: us) (w ++ w') := by
  obtain ⟨⟨k, c', hCall⟩, hAll⟩ := h
  constructor
  · obtain ⟨c'', hWakes⟩ := (hRest c' (hAll k c' hCall).2).1
    exact ⟨c'', .cons hCall hWakes⟩
  · intro c'' hWakes
    cases hWakes with
    | cons hHere hBehind =>
        obtain ⟨hSent, hStatus⟩ := hAll _ _ hHere
        rw [(hRest _ hStatus).2 _ hBehind, hSent, List.append_assoc]

theorem deliversAll_ends (hEnds : ∀ u ∈ us, u.batch = []) (c : ProxyConn) : DeliversAll c us [] := by
  induction us generalizing c with
  | nil => exact deliversAll_nil c
  | cons u us ih =>
      rw [List.forall_mem_cons] at hEnds
      exact (ProxyWakeUp.ends_advances hEnds.1 c).cons fun c' _ => ih hEnds.2 c'

theorem deliversAll_later {later : List ProxyWakeUp} (hTakes : ∀ u ∈ later, u.TakesEverything)
    (hLater : ∀ u ∈ later, u.last = .eagain ∧ u.batch ≠ [] ∧ u.batch.length < 2 ^ 31)
    (hRest : ∀ c, DeliversAll c us w) (hWrote : c.status = lHttpWroteResponseHeader) :
    DeliversAll c (later ++ us) (later.flatMap (·.batch) ++ w) := by
  induction later generalizing c with
  | nil => exact hRest c
  | cons u later ih =>
      rw [List.forall_mem_cons] at hTakes hLater
      obtain ⟨⟨hLast, hNe, hBound⟩, hOthers⟩ := hLater
      rw [List.flatMap_cons, List.append_assoc]
      exact (ProxyWakeUp.body_advances hTakes.1 hLast hNe hBound hWrote).cons fun c' => ih hTakes.2 hOthers

theorem deliversAll_waits {waits : List ProxyWakeUp} (hWaits : ∀ u ∈ waits, u.batch = [] ∧ u.last = .eagain)
    (hRest : ∀ c : ProxyConn, c.status = lProxyWaitingResponse → DeliversAll c us w)
    (hStatus : c.status = lProxyWaitingResponse) : DeliversAll c (waits ++ us) w := by
  induction waits generalizing c with
  | nil => exact hRest c hStatus
  | cons u waits ih =>
      rw [List.forall_mem_cons] at hWaits
      exact (ProxyWakeUp.waits_advances hWaits.1.1 hWaits.1.2 c).cons fun c' => ih hWaits.2

end Run

theorem flatMap_batch_nil {us : List ProxyWakeUp} (h : ∀ u ∈ us, u.batch = []) : us.flatMap (·.batch) = [] :=
  List.flatMap_eq_nil_iff.mpr h

/-- A response that is cut in place reaches the client, with its header names in lower
case. The client takes whatever it is offered; where the body is cut makes no
difference. -/
theorem deliversAll_of_cutInPlace (x : ResponseHead) (body : List UInt8) {us : List ProxyWakeUp}
    (hBytes : us.flatMap (·.batch) = x.bytes ++ body) (hTakes : ∀ u ∈ us, u.TakesEverything)
    (hCut : CutInPlace x us) {c : ProxyConn} (hStatus : c.status = lProxyWaitingResponse) :
    DeliversAll c us (x.lowerBytes ++ body) := by
  obtain ⟨waits, first, later, ends, rfl, hWaits, ⟨hHead, hLast⟩, hLater, hEnds⟩ := hCut
  rw [List.forall_mem_append, List.forall_mem_cons, List.forall_mem_append] at hTakes
  obtain ⟨-, hFirst, hRelays, -⟩ := hTakes
  obtain ⟨rest, hRest⟩ := hHead.whole
  have hBody : body = rest ++ (later.flatMap (·.batch) ++ []) := by
    rw [List.flatMap_append, flatMap_batch_nil fun u hu => (hWaits u hu).1, List.nil_append, List.flatMap_cons,
      ← hRest, List.append_assoc, List.flatMap_append, flatMap_batch_nil hEnds] at hBytes
    exact (List.append_cancel_left hBytes).symm
  rw [hBody, ← List.append_assoc]
  exact deliversAll_waits hWaits (fun c hc => (hHead.head_advances hFirst hLast hc hRest.symm).cons
    fun c' => deliversAll_later hRelays hLater (deliversAll_ends hEnds)) hStatus

theorem ok_fits : Deliverable defaultBufSize [okHead.bytes ++ [120]] := ⟨by decide, by decide, trivial⟩

def okWakeUp : ProxyWakeUp :=
  rowWakeUp [okHead.bytes ++ [120]] (fun w => .wrote w.length) ok_fits single_few

theorem closed_ends (w : List UInt8) : RecvResult.closed ≠ .data w := nofun

def closingWakeUp : ProxyWakeUp := { okWakeUp with last := .closed, last_ends := closed_ends }

def waitingConn : ProxyConn := ⟨httpInitConnection.forwarded [], fun _ => 0, []⟩

theorem deliversAll_of_cutInPlace_okWakeUp : DeliversAll waitingConn [okWakeUp] (okHead.lowerBytes ++ [120]) :=
  deliversAll_of_cutInPlace okHead [120] rfl (List.forall_mem_singleton.mpr ⟨fun _ _ => rfl, fun _ _ => rfl⟩)
    ⟨[], okWakeUp, [], [], rfl, List.forall_mem_nil _, ⟨⟨⟨[120], rfl⟩, by decide, okHead_kept, rfl, rfl⟩, rfl⟩,
      List.forall_mem_nil _, List.forall_mem_nil _⟩ rfl

/-- A response that arrives together with the close is dropped. -/
theorem not_deliversAll :
    ¬ ∀ (x : ResponseHead) (body : List UInt8) (us : List ProxyWakeUp) (c : ProxyConn),
      us.flatMap (·.batch) = x.bytes ++ body → (∀ u ∈ us, u.TakesEverything) →
      (∀ u ∈ us, u.last = .eagain ∨ u.last = .closed ∧ u.batch ≠ []) → c.status = lProxyWaitingResponse →
      DeliversAll c us (x.lowerBytes ++ body) := by
  intro hClaim
  obtain ⟨⟨c', hWakes⟩, hAll⟩ := hClaim okHead [120] [closingWakeUp] waitingConn rfl
    (List.forall_mem_singleton.mpr ⟨fun _ _ => rfl, fun _ _ => rfl⟩)
    (List.forall_mem_singleton.mpr (Or.inr ⟨rfl, by decide⟩)) rfl
  have hSent := hAll c' hWakes
  cases hWakes with
  | cons hCall hRest =>
      cases hRest
      rw [(hCall.end (by decide)).2] at hSent
      exact absurd (List.self_eq_append_right.mp hSent) (by simp)

end Leactor
