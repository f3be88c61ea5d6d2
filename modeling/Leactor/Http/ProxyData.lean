import Leactor.Http.Upstream
import Leactor.Http.ResponseForward
import Leactor.Net.Delivery

/-! `proxy_data_coming` of proxy.c: a wake-up of the upstream socket, whose batch goes
to `http_process_response_line` or to `send_buffers`, as the connection's status says. -/
namespace Leactor

open Ascii Scan Loop Memory

/-- What a wake-up meets: what it receives, the blocks of the request, its elements and
its chain, and what `writev` does on the client's socket with a head and with a body. -/
structure ProxyWakeUp extends Delivery where
  req : RequestT
  elements : Nat → LtHttpHeaderElement
  chains : Nat → LtChain
  writevHead : List UInt8 → WritevOutcome
  writevBody : List UInt8 → WritevOutcome

/-- The request of `http_create_request` on the first buffer. -/
def ProxyWakeUp.head (u : ProxyWakeUp) (s : RecvState) : Head where
  req := { u.req with state := 0 }
  buf := s.firstBuf
  mem := s.mem
  elements := ⟨[], u.elements⟩

/-- A connection and its pair, the memory, and what the client's socket took. -/
structure ProxyConn where
  pair : ConnPair
  mem : Mem
  sent : List UInt8

namespace ProxyConn

def status (c : ProxyConn) : Int := c.pair.proxyStatus

def setStatus (c : ProxyConn) (status : Int) : ProxyConn :=
  { c with pair := { c.pair with proxyStatus := status } }

@[simp] theorem status_setStatus (c : ProxyConn) (status : Int) : (c.setStatus status).status = status := rfl

@[simp] theorem sent_setStatus (c : ProxyConn) (status : Int) : (c.setStatus status).sent = c.sent := rfl

end ProxyConn

def statusBehindRecv (rv status : Int) : Int :=
  if rv = Res.lagain.code then lProxyWaitingResponse
  else if rv = Res.lclose.code then lProxyClosing
  else if rv = Res.lerror.code then lProxyError
  else status

/-- The status behind the `send_chains` of `http_send_to_client`. -/
def statusBehindSend : Res → Int
  | .lok => lHttpWroteResponseHeader
  | .lagain => lHttpWritingResponseHeader
  | .lclose => lHttpClosing
  | _ => lHttpError

def httpSendToClient (u : ProxyWakeUp) (h : Head) (c : ProxyConn) : Option ProxyConn :=
  (constructResponseChains h ⟨[], u.chains⟩).bind fun built =>
    (outVec built.2 built.1).bind fun vec =>
      let offered := iovBytes h.mem vec.1
      let out := u.writevHead offered
      (sendPooled built.2 built.1 out).map fun result =>
        { c.setStatus (statusBehindSend result.1) with sent := c.sent ++ offered.take out.count }

/-- `http_process_response_line` on the head `h`: it leaves the head and the connection. -/
inductive ProcessesResponse (u : ProxyWakeUp) (h : Head) (c : ProxyConn) : Head → ProxyConn → Prop where
  | unfinished {res : Res} {r : RequestT} {b : LtBuffer} {status : HttpStatus}
      (hLine : ngxHttpParseStatusLine h.mem h.req h.buf h.req.status = (res, r, b, status)) (hRes : res ≠ .lok) :
      ProcessesResponse u h c { h with req := { r with status := status }, buf := b } c
  | finished {h' : Head} {c' : ProxyConn} (hAccepts : AcceptsResponse h h')
      (hSend : httpSendToClient u h' c = some c') : ProcessesResponse u h c h' c'

/-- `send_buffers` on the rest of the batch. -/
def SendsBody (u : ProxyWakeUp) (mem : Mem) (bufs : List LtBuffer) (c c' : ProxyConn) : Prop :=
  let offered := iovBytes mem (bufs.map LtBuffer.iovec)
  let out := u.writevBody offered
  ∃ res bufs', sendBuffers bufs out = some (res, bufs') ∧
    c' = { c with sent := c.sent ++ offered.take (bytesWritten bufs out) }

/-- Where a batch goes: to the parser, whole to the client, or nowhere. -/
inductive Handling where
  | parsed
  | relayed
  | dropped
  deriving DecidableEq, Repr

/-- `proxy_data_coming`, by the status behind `lt_recv`. Behind a head that was sent
whole the rest of its batch is relayed in the same call. -/
inductive ProxyDataComing (u : ProxyWakeUp) (c : ProxyConn) : Handling → ProxyConn → Prop where
  | parsed {rv : Int} {s : RecvState} {h : Head} {c' : ProxyConn} (hRecv : u.Receives c.mem rv s)
      (hStatus : statusBehindRecv rv c.status = lProxyWaitingResponse)
      (hLine : ProcessesResponse u (u.head s) (c.setStatus (statusBehindRecv rv c.status)) h c')
      (hOther : c'.status ≠ lHttpWroteResponseHeader) :
      ProxyDataComing u c .parsed { c' with mem := h.mem }
  | begun {rv : Int} {s : RecvState} {h : Head} {c' c'' : ProxyConn} (hRecv : u.Receives c.mem rv s)
      (hStatus : statusBehindRecv rv c.status = lProxyWaitingResponse)
      (hLine : ProcessesResponse u (u.head s) (c.setStatus (statusBehindRecv rv c.status)) h c')
      (hWrote : c'.status = lHttpWroteResponseHeader)
      (hBody : SendsBody u h.mem (h.buf :: s.bufs.tail) { c' with mem := h.mem } c'') :
      ProxyDataComing u c .parsed c''
  | relayed {rv : Int} {s : RecvState} {c' : ProxyConn} (hRecv : u.Receives c.mem rv s)
      (hStatus : statusBehindRecv rv c.status = lHttpWroteResponseHeader)
      (hBody : SendsBody u s.mem s.bufs { c.setStatus (statusBehindRecv rv c.status) with mem := s.mem } c') :
      ProxyDataComing u c .relayed c'
  | dropped {rv : Int} {s : RecvState} (hRecv : u.Receives c.mem rv s)
      (hStatus : statusBehindRecv rv c.status ≠ lProxyWaitingResponse)
      (hOther : statusBehindRecv rv c.status ≠ lHttpWroteResponseHeader) :
      ProxyDataComing u c .dropped { c.setStatus (statusBehindRecv rv c.status) with mem := s.mem }

section Status

variable {u : ProxyWakeUp} {mem : Mem} {rv : Int} {s : RecvState}

/-- The status behind a wake-up that ends with `EAGAIN`. -/
theorem Delivery.Receives.status_eagain (h : u.Receives mem rv s) (hLast : u.last = .eagain) (status : Int) :
    statusBehindRecv rv status = if u.batch = [] then lProxyWaitingResponse else status := by
  have hRv := h.run_eq.2
  rw [hLast] at hRv
  by_cases hNil : u.batch = []
  · rw [hNil] at hRv
    rw [hRv, if_pos hNil]
    rfl
  · have hPos := List.length_pos_iff.mpr hNil
    rw [recvCode, if_pos hPos] at hRv
    rw [if_neg hNil, statusBehindRecv, if_neg, if_neg, if_neg]
    · rw [hRv, Res.code]
      omega
    · rw [hRv, Res.code]
      omega
    · rw [hRv, Res.code]
      omega

/-- Behind a wake-up that meets the end nothing is parsed or relayed. -/
theorem Delivery.Receives.status_end (h : u.Receives mem rv s) (hLast : u.last ≠ .eagain) (status : Int) :
    statusBehindRecv rv status ≠ lProxyWaitingResponse ∧ statusBehindRecv rv status ≠ lHttpWroteResponseHeader := by
  have hRv := h.run_eq.2
  have hEnds := u.last_ends
  cases hEnd : u.last with
  | data w => exact absurd hEnd (hEnds w)
  | eagain => exact absurd hEnd hLast
  | closed =>
      rw [hRv, hEnd, show statusBehindRecv (recvCode .closed u.batch.length) status = lProxyClosing from rfl]
      decide
  | error =>
      rw [hRv, hEnd, show statusBehindRecv (recvCode .error u.batch.length) status = lProxyError from rfl]
      decide

end Status

theorem httpSendToClient_whole {u : ProxyWakeUp} {h : Head} {c : ProxyConn} {first : Nat}
    {chains : Arena LtChain} {bufs : List Iovec} {w : List UInt8}
    (hConstruct : constructResponseChains h ⟨[], u.chains⟩ = some (first, chains))
    (hVec : outVec chains first = some (bufs, none)) (hBytes : iovBytes h.mem bufs = w) (hNe : w ≠ [])
    (hWhole : u.writevHead w = .wrote w.length) :
    httpSendToClient u h c = some { c.setStatus lHttpWroteResponseHeader with sent := c.sent ++ w } := by
  obtain ⟨chains', hSend⟩ := sendPooled_whole h.mem hVec (by rwa [hBytes])
  rw [hBytes] at hSend
  simp only [httpSendToClient, hConstruct, Option.bind_some, hVec, hBytes, hWhole, hSend, Option.map_some,
    WritevOutcome.count, List.take_length]
  rfl

/-- A head that is accepted is finished. -/
theorem ProcessesResponse.of_accepts {u : ProxyWakeUp} {h h' g : Head} {c c' : ProxyConn}
    (hCall : ProcessesResponse u h c g c') (hAccepts : AcceptsResponse h h') :
    g = h' ∧ httpSendToClient u h' c = some c' := by
  cases hCall with
  | unfinished hLine hRes =>
      obtain ⟨r, b, status, hLine', -⟩ := hAccepts
      rw [hLine'] at hLine
      cases hLine
      exact absurd rfl hRes
  | finished hAccepts' hSend =>
      obtain rfl := hAccepts'.unique hAccepts
      exact ⟨rfl, hSend⟩

/-- Nothing to parse leaves the connection alone. -/
theorem ProcessesResponse.of_nil {u : ProxyWakeUp} {h g : Head} {c c' : ProxyConn}
    (hCall : ProcessesResponse u h c g c') (hState : h.req.state = 0) (hNil : h.buf.unread h.mem = []) :
    c' = c := by
  cases hCall with
  | unfinished => rfl
  | finished hAccepts =>
      obtain ⟨r, b, status, hLine, -⟩ := hAccepts
      rw [ngxHttpParseStatusLine, hState, hNil] at hLine
      have hRes := congrArg Prod.fst hLine
      cases hRes

/-- `http_process_response_line` leaves all of the pair but its status. -/
theorem ProcessesResponse.pair_eq {u : ProxyWakeUp} {h g : Head} {c c' : ProxyConn}
    (hCall : ProcessesResponse u h c g c') : c'.pair = { c.pair with proxyStatus := c'.status } := by
  cases hCall with
  | unfinished => rfl
  | finished _ hSend =>
      obtain ⟨built, -, hSend⟩ := Option.bind_eq_some_iff.mp hSend
      obtain ⟨vec, -, hSend⟩ := Option.bind_eq_some_iff.mp hSend
      obtain ⟨result, -, rfl⟩ := Option.map_eq_some_iff.mp hSend
      rfl

/-- `proxy_data_coming` leaves all of the pair but its status. -/
theorem ProxyDataComing.pair_eq {u : ProxyWakeUp} {c c' : ProxyConn} {handling : Handling}
    (hCall : ProxyDataComing u c handling c') : c'.pair = { c.pair with proxyStatus := c'.status } := by
  cases hCall with
  | parsed hRecv hStatus hLine hOther =>
      have hPair := hLine.pair_eq
      exact hPair
  | begun hRecv hStatus hLine hWrote hBody =>
      obtain ⟨res, bufs', -, rfl⟩ := hBody
      have hPair := hLine.pair_eq
      exact hPair
  | relayed hRecv hStatus hBody =>
      obtain ⟨res, bufs', -, rfl⟩ := hBody
      rfl
  | dropped => rfl

def handlingFor (status : Int) : Handling :=
  if status = lProxyWaitingResponse then .parsed
  else if status = lHttpWroteResponseHeader then .relayed
  else .dropped

section Wakes

variable {u : ProxyWakeUp} {c : ProxyConn}

/-- The parser sees the batch up to the end of the first buffer. -/
theorem Delivery.Receives.head_unread {mem : Mem} {rv : Int} {r : RecvState} (h : u.Receives mem rv r) :
    (u.head r).buf.unread (u.head r).mem = u.batch.take defaultBufSize := h.unread

theorem Delivery.Receives.unread_nil {mem : Mem} {rv : Int} {r : RecvState} (h : u.Receives mem rv r)
    (hNil : u.batch = []) : (u.head r).buf.unread (u.head r).mem = [] := by
  rw [h.head_unread, hNil, List.take_nil]

/-- An empty wake-up is parsed, and leaves the connection waiting for a response. -/
theorem ProxyDataComing.empty {k : Handling} {c' : ProxyConn} (hCall : ProxyDataComing u c k c')
    (hNil : u.batch = []) (hLast : u.last = .eagain) :
    k = .parsed ∧ c'.status = lProxyWaitingResponse ∧ c'.sent = c.sent := by
  have hBehind : ∀ rv r, u.Receives c.mem rv r → statusBehindRecv rv c.status = lProxyWaitingResponse :=
    fun rv r hRecv => (hRecv.status_eagain hLast _).trans (if_pos hNil)
  cases hCall with
  | parsed hRecv hStatus hLine =>
      obtain rfl := hLine.of_nil rfl (hRecv.unread_nil hNil)
      exact ⟨rfl, hStatus, rfl⟩
  | begun hRecv hStatus hLine hWrote =>
      obtain rfl := hLine.of_nil rfl (hRecv.unread_nil hNil)
      exact absurd (hStatus.symm.trans hWrote) (by decide)
  | relayed hRecv hStatus => exact absurd ((hBehind _ _ hRecv).symm.trans hStatus) (by decide)
  | dropped hRecv hStatus => exact absurd (hBehind _ _ hRecv) hStatus

/-- A wake-up that meets the end drops its batch. -/
theorem ProxyDataComing.end {k : Handling} {c' : ProxyConn} (hCall : ProxyDataComing u c k c')
    (hLast : u.last ≠ .eagain) : k = .dropped ∧ c'.sent = c.sent := by
  cases hCall with
  | parsed hRecv hStatus => exact absurd hStatus (hRecv.status_end hLast _).1
  | begun hRecv hStatus => exact absurd hStatus (hRecv.status_end hLast _).1
  | relayed hRecv hStatus => exact absurd hStatus (hRecv.status_end hLast _).2
  | dropped => exact ⟨rfl, rfl⟩

/-- Data in front of `EAGAIN` goes where the status says. -/
theorem ProxyDataComing.handling_eq {k : Handling} {c' : ProxyConn} (hCall : ProxyDataComing u c k c')
    (hNe : u.batch ≠ []) (hLast : u.last = .eagain) : k = handlingFor c.status := by
  have hBehind : ∀ rv r, u.Receives c.mem rv r → statusBehindRecv rv c.status = c.status :=
    fun rv r hRecv => (hRecv.status_eagain hLast _).trans (if_neg hNe)
  cases hCall with
  | parsed hRecv hStatus => rw [← hBehind _ _ hRecv, hStatus, handlingFor, if_pos rfl]
  | begun hRecv hStatus => rw [← hBehind _ _ hRecv, hStatus, handlingFor, if_pos rfl]
  | relayed hRecv hStatus =>
      rw [← hBehind _ _ hRecv, hStatus]
      rfl
  | dropped hRecv hStatus hOther => rw [← hBehind _ _ hRecv, handlingFor, if_neg hStatus, if_neg hOther]

/-- A batch that does not begin with a status line is parsed to no effect. -/
theorem exists_unfinished (hStatus : ∀ rv r, u.Receives c.mem rv r →
      statusBehindRecv rv c.status = lProxyWaitingResponse)
    (hLine : ∀ rv r, u.Receives c.mem rv r →
      (ngxHttpParseStatusLine (u.head r).mem (u.head r).req (u.head r).buf (u.head r).req.status).1 ≠ .lok) :
    ∃ c', ProxyDataComing u c .parsed c' ∧ c'.pair = (c.setStatus lProxyWaitingResponse).pair := by
  obtain ⟨rv, r, hRecv⟩ := u.receives c.mem
  have hWaits := hStatus rv r hRecv
  have hStops := hLine rv r hRecv
  generalize hCall : ngxHttpParseStatusLine (u.head r).mem (u.head r).req (u.head r).buf (u.head r).req.status = call
    at hStops
  obtain ⟨res, q, b, status⟩ := call
  refine ⟨_, .parsed hRecv hWaits (.unfinished hCall hStops) ?_, by rw [hWaits]⟩
  rw [hWaits, ProxyConn.status_setStatus]
  decide

/-- Any wake-up without data comes back. -/
theorem exists_empty (hNil : u.batch = []) (c : ProxyConn) : ∃ k c', ProxyDataComing u c k c' := by
  by_cases hLast : u.last = .eagain
  · obtain ⟨c', hCall, -⟩ := @exists_unfinished u c
      (fun rv r hRecv => (hRecv.status_eagain hLast _).trans (if_pos hNil)) fun rv r hRecv => by
        rw [ngxHttpParseStatusLine, hRecv.unread_nil hNil]
        intro hDone
        cases hDone
    exact ⟨_, c', hCall⟩
  · obtain ⟨rv, r, hRecv⟩ := u.receives c.mem
    obtain ⟨hParsed, hRelayed⟩ := hRecv.status_end hLast c.status
    exact ⟨_, _, .dropped hRecv hParsed hRelayed⟩

end Wakes

def rowWakeUp (deliveries : List (List UInt8)) (writevHead : List UInt8 → WritevOutcome)
    (hFits : Deliverable defaultBufSize deliveries) (hFew : deliveries.length ≤ 1) : ProxyWakeUp where
  toDelivery := rowDelivery deliveries hFits hFew
  req := {}
  elements := fun _ => ⟨0, 0, ⟨0, 0⟩, ⟨0, 0⟩, ⟨0, 0⟩, none⟩
  chains := fun _ => ⟨⟨0, 0⟩, none, 0⟩
  writevHead := writevHead
  writevBody := fun w => .wrote w.length

end Leactor
