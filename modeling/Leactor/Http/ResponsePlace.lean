import Leactor.Http.ResponseStream
import Leactor.Http.Verbatim
import Leactor.Library.Run

/-! Where the upstream's bytes go: runs of `proxy_data_coming` between calls of
`http_send_to_upstream`, over the row of responses that the upstream writes. -/
namespace Leactor

open Ascii Scan Loop Memory Run

/-- The responses of the upstream, one to each forwarded request. -/
structure Responses where
  head : Nat → List UInt8
  body : Nat → List UInt8
  head_ne : ∀ i, head i ≠ []

namespace Responses

def stream (x : Responses) (n : Nat) : List UInt8 := (List.range n).flatMap fun i => x.head i ++ x.body i

def start (x : Responses) (i : Nat) : Nat := (x.stream i).length

end Responses

/-- A proxied connection: how many requests were forwarded, how many bytes of their
responses were received, and whether the upstream has closed. -/
structure ProxyRun where
  conn : ProxyConn
  forwarded : Nat
  received : Nat
  ended : Bool

inductive ProxyEvent where
  | connected
  | forward (writev : Nat → List UInt8 → WritevOutcome) (h : Head) (chains : Arena LtChain) (outChain : Nat)
  | wakeUp (u : ProxyWakeUp)

namespace ProxyRun

def begin (mem : Mem) : ProxyRun := ⟨⟨httpInitConnection, mem, []⟩, 0, 0, false⟩

def callback (s : ProxyRun) : Option ConnCallback := s.conn.pair.base.callbacks[s.conn.pair.proxyEv]?

/-- `n` bytes further on a response begins, or the last one has ended. -/
def AtBoundary (x : Responses) (s : ProxyRun) (n : Nat) : Prop :=
  ∃ i, i ≤ s.forwarded ∧ s.received + n = x.start i

/-- The next byte is the first one of the head of a response to a forwarded request. -/
def AtHead (x : Responses) (s : ProxyRun) : Prop := ∃ i, i < s.forwarded ∧ s.received = x.start i

/-- What a wake-up can meet: bytes that come next, and nothing behind the end. -/
structure Meets (x : Responses) (s : ProxyRun) (u : ProxyWakeUp) : Prop where
  callback : s.callback = some .proxyDataComing
  batch : u.batch <+: (x.stream s.forwarded).drop s.received
  ended : s.ended = true → u.batch = [] ∧ u.last ≠ .eagain

end ProxyRun

/-- The steps. Any call of `http_send_to_upstream` counts as a forwarded request. -/
inductive ProxyStep (x : Responses) : ProxyRun → ProxyEvent → ProxyRun → Prop where
  | connected {s : ProxyRun} (hCallback : s.callback = some .proxyConnectWritable) :
      ProxyStep x s .connected { s with conn := s.conn.setStatus lProxyConnected }
  | forward {s : ProxyRun} {writev : Nat → List UInt8 → WritevOutcome} {h : Head} {chains : Arena LtChain}
      {outChain : Nat} {p : ConnPair} (hSend : httpSendToUpstream writev h chains outChain s.conn.pair = some p) :
      ProxyStep x s (.forward writev h chains outChain)
        { s with conn := { s.conn with pair := p }, forwarded := s.forwarded + 1 }
  | wakeUp {s : ProxyRun} {u : ProxyWakeUp} {k : Handling} {c : ProxyConn} (hMeets : s.Meets x u)
      (hCall : ProxyDataComing u s.conn k c) :
      ProxyStep x s (.wakeUp u) ⟨c, s.forwarded, s.received + u.batch.length, s.ended || decide (u.last ≠ .eagain)⟩

/-- The client takes bytes of a head that the batch's first buffer holds, and the
chain's last link is NULL. -/
def ProxyWakeUp.TakesHead (u : ProxyWakeUp) (mem : Mem) : Prop :=
  ∃ rv r h', u.Receives mem rv r ∧ AcceptsResponse (u.head r) h' ∧
    ∀ first chains vec, constructResponseChains h' ⟨[], u.chains⟩ = some (first, chains) →
      outVec chains first = some vec → vec.2 = none ∧ ∃ n, n ≠ 0 ∧ u.writevHead (iovBytes h'.mem vec.1) = .wrote n

/-- The batch's first buffer holds no head, or one that the client refuses. -/
def ProxyWakeUp.LeavesHead (u : ProxyWakeUp) (mem : Mem) : Prop :=
  ∀ rv r h', u.Receives mem rv r → AcceptsResponse (u.head r) h' →
    ∀ first chains vec, constructResponseChains h' ⟨[], u.chains⟩ = some (first, chains) →
      outVec chains first = some vec → u.writevHead (iovBytes h'.mem vec.1) = .eagain

/-- Requests are forwarded between two responses, by a `writev` that takes bytes of
a chain with a NULL last link. Data does not come together with the end. An empty
batch comes where a response begins; and where a response is waited for, the batch
holds its head, or ends where the response does. -/
def InPlace (x : Responses) (s : ProxyRun) : ProxyEvent → Prop
  | .connected => True
  | .forward writev h chains outChain =>
      s.AtBoundary x 0 ∧ ∀ vec, outVec chains outChain = some vec →
        vec.2 = none ∧ ∃ n, n ≠ 0 ∧ writev s.conn.pair.calls (iovBytes h.mem vec.1) = .wrote n
  | .wakeUp u =>
      (u.batch = [] → u.last = .eagain → s.AtHead x) ∧
        (u.batch ≠ [] → u.last = .eagain ∧
          (s.conn.status = lProxyWaitingResponse →
            u.TakesHead s.conn.mem ∨ s.AtBoundary x u.batch.length ∧ u.LeavesHead s.conn.mem))

/-- What is parsed is a head, and every batch that is not empty is parsed or relayed. -/
def PlacesBatch (x : Responses) (s : ProxyRun) (u : ProxyWakeUp) (k : Handling) : Prop :=
  (k = .parsed → s.AtHead x) ∧ (k = .dropped → u.batch = [])

/-- Where a response is waited for, none has been begun; and once a request was
forwarded, one is waited for or under way. -/
structure Placed (x : Responses) (s : ProxyRun) : Prop where
  waiting : s.conn.status = lProxyWaitingResponse → s.AtBoundary x 0
  status : s.callback = some .proxyDataComing →
    s.conn.status = lProxyWaitingResponse ∨ s.conn.status = lHttpWroteResponseHeader

section Steps

variable {x : Responses} {s : ProxyRun} {u : ProxyWakeUp}

/-- A batch that comes where a response begins or ends comes where one begins. -/
theorem ProxyRun.AtBoundary.atHead (h : s.AtBoundary x 0)
    (hBatch : u.batch <+: (x.stream s.forwarded).drop s.received)
    (hNe : u.batch ≠ []) : s.AtHead x := by
  obtain ⟨i, hLe, hStart⟩ := h
  refine ⟨i, lt_of_le_of_ne hLe ?_, hStart⟩
  rintro rfl
  rw [Nat.add_zero] at hStart
  rw [hStart, Responses.start, List.drop_length] at hBatch
  exact hNe (List.prefix_nil.mp hBatch)

theorem ProxyRun.AtHead.atBoundary (h : s.AtHead x) : s.AtBoundary x 0 := by
  obtain ⟨i, hLt, hStart⟩ := h
  exact ⟨i, Nat.le_of_lt hLt, hStart⟩

/-- A request of which bytes are written leaves the connection waiting. -/
theorem httpSendToUpstream_status {writev : Nat → List UInt8 → WritevOutcome} {h : Head} {chains : Arena LtChain}
    {outChain : Nat} {p p' : ConnPair} (hSend : httpSendToUpstream writev h chains outChain p = some p')
    (hTakes : ∀ vec, outVec chains outChain = some vec →
      vec.2 = none ∧ ∃ n, n ≠ 0 ∧ writev p.calls (iovBytes h.mem vec.1) = .wrote n) :
    p'.proxyStatus = lProxyWaitingResponse := by
  obtain ⟨vec, hVec, hRest⟩ := Option.bind_eq_some_iff.mp hSend
  obtain ⟨hLast, n, hn, hWrote⟩ := hTakes vec hVec
  simp only [hWrote] at hRest
  obtain ⟨⟨res, chains', out⟩, hChains, rfl⟩ := Option.map_eq_some_iff.mp hRest
  obtain rfl := sendPooled_null hVec hLast hn (sendPooled_of_sendOutChain hChains)
  rfl

/-- What `http_send_to_client` leaves in the status. -/
theorem httpSendToClient_status {h : Head} {c c' : ProxyConn} (hSend : httpSendToClient u h c = some c') :
    ∃ first chains vec res, constructResponseChains h ⟨[], u.chains⟩ = some (first, chains) ∧
      outVec chains first = some vec ∧ c'.status = statusBehindSend res ∧
      (∀ n, n ≠ 0 → vec.2 = none → u.writevHead (iovBytes h.mem vec.1) = .wrote n → res = .lok) ∧
      (u.writevHead (iovBytes h.mem vec.1) = .eagain → res = .lagain) := by
  obtain ⟨⟨first, chains⟩, hConstruct, hRest⟩ := Option.bind_eq_some_iff.mp hSend
  obtain ⟨vec, hVec, hRest⟩ := Option.bind_eq_some_iff.mp hRest
  obtain ⟨⟨res, chains', out⟩, hChains, rfl⟩ := Option.map_eq_some_iff.mp hRest
  refine ⟨first, chains, vec, res, hConstruct, hVec, rfl, fun n hn hLast hWrote => ?_, fun hRefused => ?_⟩
  · rw [hWrote] at hChains
    exact sendPooled_null hVec hLast hn hChains
  · rw [hRefused, sendPooled_eagain hVec] at hChains
    cases hChains
    rfl

theorem SendsBody.status {mem : Mem} {bufs : List LtBuffer} {c c' : ProxyConn} (h : SendsBody u mem bufs c c') :
    c'.status = c.status := by
  obtain ⟨res, bufs', -, rfl⟩ := h
  rfl

/-- A response that is waited for, behind a batch that is parsed but not sent. -/
theorem ProxyWakeUp.LeavesHead.status {mem : Mem} {rv : Int} {r : RecvState} {h : Head} {c c' : ProxyConn}
    (hLeaves : u.LeavesHead mem) (hRecv : u.Receives mem rv r) (hLine : ProcessesResponse u (u.head r) c h c')
    (hWaits : c.status = lProxyWaitingResponse) : c'.status = lProxyWaitingResponse := by
  cases hLine with
  | unfinished => exact hWaits
  | finished hAccepts hSend =>
      obtain ⟨first, chains, vec, res, hConstruct, hVec, hStatus, -, hRefused⟩ := httpSendToClient_status hSend
      rw [hStatus, hRefused (hLeaves _ _ _ hRecv hAccepts _ _ _ hConstruct hVec)]
      rfl

theorem ProxyWakeUp.TakesHead.status {mem : Mem} {rv : Int} {r : RecvState} {h : Head} {c c' : ProxyConn}
    (hTakes : u.TakesHead mem) (hRecv : u.Receives mem rv r) (hLine : ProcessesResponse u (u.head r) c h c') :
    c'.status = lHttpWroteResponseHeader := by
  obtain ⟨rv', r', h', hRecv', hAccepts, hTaken⟩ := hTakes
  obtain ⟨rfl, rfl⟩ := hRecv.unique hRecv'
  obtain ⟨-, hSend⟩ := hLine.of_accepts hAccepts
  obtain ⟨first, chains, vec, res, hConstruct, hVec, hStatus, hSent, -⟩ := httpSendToClient_status hSend
  obtain ⟨hLast, n, hn, hWrote⟩ := hTaken _ _ _ hConstruct hVec
  rw [hStatus, hSent n hn hLast hWrote]
  rfl

theorem placed_of_wrote {t : ProxyRun} (hStatus : t.conn.status = lHttpWroteResponseHeader) : Placed x t where
  waiting hWaits := absurd (hStatus.symm.trans hWaits) (by decide)
  status _ := Or.inr hStatus

theorem placed_of_waiting {t : ProxyRun} (hStatus : t.conn.status = lProxyWaitingResponse)
    (hPlace : t.AtBoundary x 0) : Placed x t where
  waiting _ := hPlace
  status _ := Or.inl hStatus

/-- A wake-up with data: a head is parsed where a response is waited for, and behind
it the response is under way. -/
theorem Placed.data {k : Handling} {c : ProxyConn} (hPlaced : Placed x s) (hMeets : s.Meets x u)
    (hNe : u.batch ≠ []) (hLast : u.last = .eagain)
    (hGuard : s.conn.status = lProxyWaitingResponse →
      u.TakesHead s.conn.mem ∨ s.AtBoundary x u.batch.length ∧ u.LeavesHead s.conn.mem)
    (hCall : ProxyDataComing u s.conn k c) (ended : Bool) :
    PlacesBatch x s u k ∧ Placed x ⟨c, s.forwarded, s.received + u.batch.length, ended⟩ := by
  have hBehind : ∀ rv r, u.Receives s.conn.mem rv r → statusBehindRecv rv s.conn.status = s.conn.status :=
    fun rv r hRecv => (hRecv.status_eagain hLast _).trans (if_neg hNe)
  cases hCall with
  | parsed hRecv hStatus hLine hOther =>
      have hWaits := (hBehind _ _ hRecv).symm.trans hStatus
      refine ⟨⟨fun _ => (hPlaced.waiting hWaits).atHead hMeets.batch hNe, nofun⟩, ?_⟩
      rcases hGuard hWaits with hTakes | ⟨hPlace, hLeaves⟩
      · exact absurd (hTakes.status hRecv hLine) hOther
      · have hLeft := hLeaves.status hRecv hLine hStatus
        exact placed_of_waiting hLeft hPlace
  | begun hRecv hStatus hLine hWrote hBody =>
      have hWaits := (hBehind _ _ hRecv).symm.trans hStatus
      refine ⟨⟨fun _ => (hPlaced.waiting hWaits).atHead hMeets.batch hNe, nofun⟩, ?_⟩
      exact placed_of_wrote (hBody.status.trans hWrote)
  | relayed hRecv hStatus hBody => exact ⟨⟨nofun, nofun⟩, placed_of_wrote (hBody.status.trans hStatus)⟩
  | dropped hRecv hStatus hOther =>
      rw [hBehind _ _ hRecv] at hStatus hOther
      exact ((hPlaced.status hMeets.callback).elim hStatus hOther).elim

theorem Placed.wakeUp {k : Handling} {c : ProxyConn} (hPlaced : Placed x s) (hMeets : s.Meets x u)
    (hGuard : InPlace x s (.wakeUp u)) (hCall : ProxyDataComing u s.conn k c) :
    PlacesBatch x s u k ∧
      (u.last = .eagain → ∀ ended, Placed x ⟨c, s.forwarded, s.received + u.batch.length, ended⟩) := by
  obtain ⟨hEmpty, hData⟩ := hGuard
  by_cases hNil : u.batch = []
  · by_cases hLast : u.last = .eagain
    · have hHead := hEmpty hNil hLast
      obtain ⟨-, hStatus, -⟩ := hCall.empty hNil hLast
      refine ⟨⟨fun _ => hHead, fun _ => hNil⟩, fun _ ended => placed_of_waiting hStatus ?_⟩
      rw [hNil]
      exact hHead.atBoundary
    · refine ⟨⟨fun hParsed => ?_, fun _ => hNil⟩, fun hEagain => absurd hEagain hLast⟩
      exact nomatch hParsed.symm.trans (hCall.end hLast).1
  · obtain ⟨hLast, hWaits⟩ := hData hNil
    exact ⟨(hPlaced.data hMeets hNil hLast hWaits hCall false).1,
      fun _ ended => (hPlaced.data hMeets hNil hLast hWaits hCall ended).2⟩

/-- A run of steps in place keeps the response's place, until the upstream closes. -/
theorem Placed.step {a : ProxyEvent} {t : ProxyRun} (h : s.ended = true ∨ Placed x s) (hGuard : InPlace x s a)
    (hStep : ProxyStep x s a t) : t.ended = true ∨ Placed x t := by
  rcases h with hEnded | hPlaced
  · cases hStep with
    | connected => exact Or.inl hEnded
    | forward => exact Or.inl hEnded
    | wakeUp => exact Or.inl (by simp only [hEnded, Bool.true_or])
  · cases hStep with
    | connected hCallback =>
        refine Or.inr ⟨fun hWaits => absurd hWaits (by decide : lProxyConnected ≠ lProxyWaitingResponse),
          fun hOther => ?_⟩
        have hSame : s.callback = some .proxyDataComing := hOther
        rw [hCallback] at hSame
        cases hSame
    | forward hSend =>
        obtain ⟨⟨i, hLe, hStart⟩, hTakes⟩ := hGuard
        exact Or.inr (placed_of_waiting (httpSendToUpstream_status hSend hTakes) ⟨i, Nat.le_succ_of_le hLe, hStart⟩)
    | @wakeUp u k c hMeets hCall =>
        by_cases hLast : u.last = .eagain
        · exact Or.inr ((hPlaced.wakeUp hMeets hGuard hCall).2 hLast _)
        · exact Or.inl (by simp [hLast])

end Steps

/-- In a run of steps in place, only heads are parsed, and the rest is relayed. The
conditions on a wake-up are on what it receives, and on how much of a head the client
takes. -/
theorem placesBatch_of_run {x : Responses} {mem : Mem} {s : ProxyRun}
    (h : Arrives (ProxyStep x) (InPlace x) (.begin mem) s) {u : ProxyWakeUp} (hMeets : s.Meets x u)
    (hGuard : InPlace x s (.wakeUp u)) {k : Handling} {c : ProxyConn} (hCall : ProxyDataComing u s.conn k c) :
    PlacesBatch x s u k := by
  have hInv := h.all (I := fun s => s.ended = true ∨ Placed x s)
    (Or.inr ⟨fun hWaits => absurd hWaits (by decide : lProxyConnecting ≠ lProxyWaitingResponse),
      fun hCallback => by cases hCallback⟩)
    fun s a t hs hInPlace hStep => Placed.step hs hInPlace hStep
  rcases hInv with hEnded | hPlaced
  · obtain ⟨hNil, hLast⟩ := hMeets.ended hEnded
    refine ⟨fun hParsed => ?_, fun _ => hNil⟩
    exact nomatch hParsed.symm.trans (hCall.end hLast).1
  · exact (hPlaced.wakeUp hMeets hGuard hCall).1

def oneNode : Arena LtChain := ⟨[⟨⟨0, 1⟩, none, 1⟩], fun _ => ⟨⟨0, 0⟩, none, 0⟩⟩

/-- The run behind a request that was forwarded at once. -/
theorem forwardedOnce_run (x : Responses) (guard : ProxyRun → ProxyEvent → Prop) (mem : Mem) (h : Head)
    (hGuard : guard (.begin mem) (.forward takesEveryByte h oneNode 0)) :
    ∃ p, Arrives (ProxyStep x) guard (.begin mem) ⟨⟨p, mem, []⟩, 1, 0, false⟩ ∧
      p.proxyStatus = lProxyWaitingResponse ∧ p.base.callbacks[p.proxyEv]? = some .proxyDataComing := by
  obtain ⟨p, hSend, hStatus, hCallback⟩ : ∃ p,
      httpSendToUpstream takesEveryByte h oneNode 0 httpInitConnection = some p ∧
      p.proxyStatus = lProxyWaitingResponse ∧ p.base.callbacks[p.proxyEv]? = some .proxyDataComing :=
    ⟨_, rfl, rfl, rfl⟩
  exact ⟨p, .next _ .start hGuard (.forward hSend), hStatus, hCallback⟩

def okResponses : Responses where
  head _ := okHead.bytes
  body _ := [120]
  head_ne _ := by simp [ResponseHead.bytes]

def twoByteResponses : Responses where
  head _ := okHead.bytes
  body _ := [120, 121]
  head_ne _ := by simp [ResponseHead.bytes]

theorem lastByte_fits : Deliverable defaultBufSize [[121]] := ⟨by decide, by decide, trivial⟩

/-- The second byte of the body, behind a delivery of the head and the first one. -/
def lastByteWakeUp : ProxyWakeUp := rowWakeUp [[121]] (fun w => .wrote w.length) lastByte_fits single_few

theorem rowWakeUp_takesEverything (deliveries : List (List UInt8)) (hFits : Deliverable defaultBufSize deliveries)
    (hFew : deliveries.length ≤ 1) :
    (rowWakeUp deliveries (fun w => .wrote w.length) hFits hFew).TakesEverything :=
  ⟨fun _ _ => rfl, fun _ _ => rfl⟩

theorem ProxyWakeUp.HoldsHead.takesHead {x : ResponseHead} {u : ProxyWakeUp} (h : u.HoldsHead x)
    (hTakes : u.TakesEverything) (mem : Mem) : u.TakesHead mem := by
  obtain ⟨rv, r, hRecv⟩ := u.receives mem
  obtain ⟨h', first, chains, bufs, hAccepts, hConstruct, hVec, hBytes, -⟩ := h.builds hRecv
  have hNe := ProxyWakeUp.lowerBytes_ne x
  refine ⟨rv, r, h', hRecv, hAccepts, fun first' chains' vec hConstruct' hVec' => ?_⟩
  rw [hConstruct] at hConstruct'
  cases hConstruct'
  rw [hVec] at hVec'
  cases hVec'
  refine ⟨rfl, x.lowerBytes.length, (List.length_pos_iff.mpr hNe).ne', ?_⟩
  rw [hBytes]
  exact hTakes.head _ hNe

theorem placesBatch_of_run_headAndBody : ∃ p c c',
    ProxyDataComing okWakeUp ⟨p, fun _ => 0, []⟩ .parsed c ∧
      PlacesBatch twoByteResponses ⟨⟨p, fun _ => 0, []⟩, 1, 0, false⟩ okWakeUp .parsed ∧
      ProxyDataComing lastByteWakeUp c .relayed c' ∧
      PlacesBatch twoByteResponses ⟨c, 1, okWakeUp.batch.length, false⟩ lastByteWakeUp .relayed ∧
      c'.sent = okHead.lowerBytes ++ [120, 121] := by
  obtain ⟨p, hRun, hStatus, hCallback⟩ := forwardedOnce_run twoByteResponses (InPlace twoByteResponses) (fun _ => 0)
    (.received [])
    ⟨⟨0, Nat.le_refl 0, rfl⟩, fun vec hVec => by
      cases hVec
      exact ⟨rfl, 1, Nat.one_ne_zero, rfl⟩⟩
  -- the head, with the first byte of the body
  have hHolds : okWakeUp.HoldsHead okHead := ⟨⟨[120], rfl⟩, by decide, okHead_kept, rfl, rfl⟩
  have hTakes : okWakeUp.TakesEverything := rowWakeUp_takesEverything _ _ _
  obtain ⟨⟨k, c, hHead⟩, hAll⟩ := @ProxyWakeUp.HoldsHead.head_advances _ ⟨p, fun _ => 0, []⟩ _ _ hHolds hTakes rfl hStatus rfl
  obtain ⟨hSent, hWrote⟩ := hAll k c hHead
  have hMeets : ProxyRun.Meets twoByteResponses ⟨⟨p, fun _ => 0, []⟩, 1, 0, false⟩ okWakeUp :=
    ⟨hCallback, ⟨[121], rfl⟩, fun hEnded => by cases hEnded⟩
  have hPlace : InPlace twoByteResponses ⟨⟨p, fun _ => 0, []⟩, 1, 0, false⟩ (.wakeUp okWakeUp) :=
    ⟨fun hNil => absurd hNil (List.cons_ne_nil _ _), fun _ => ⟨rfl, fun _ => Or.inl (hHolds.takesHead hTakes _)⟩⟩
  obtain rfl : k = .parsed := by
    rw [hHead.handling_eq (List.cons_ne_nil _ _) rfl, ProxyConn.status, hStatus]
    rfl
  have hNext := hRun.next _ hPlace (.wakeUp hMeets hHead)
  -- the second byte
  obtain ⟨⟨k, c', hBody⟩, hAll'⟩ := ProxyWakeUp.body_advances (rowWakeUp_takesEverything _ lastByte_fits single_few)
    rfl (by decide) (by decide) hWrote
  obtain rfl : k = .relayed := by
    rw [hBody.handling_eq (List.cons_ne_nil _ _) rfl, hWrote]
    rfl
  have hMeets' : ProxyRun.Meets twoByteResponses ⟨c, 1, 0 + okWakeUp.batch.length, false⟩ lastByteWakeUp := by
    refine ⟨?_, ⟨[], rfl⟩, fun hEnded => by cases hEnded⟩
    rw [ProxyRun.callback, hHead.pair_eq]
    exact hCallback
  have hPlace' : InPlace twoByteResponses ⟨c, 1, 0 + okWakeUp.batch.length, false⟩ (.wakeUp lastByteWakeUp) :=
    ⟨fun hNil => absurd hNil (List.cons_ne_nil _ _), fun _ => ⟨rfl, fun hWaits => absurd (hWrote.symm.trans hWaits) (by decide)⟩⟩
  refine ⟨p, c, c', hHead, placesBatch_of_run hRun hMeets hPlace hHead, hBody, ?_, ?_⟩
  · rw [← Nat.zero_add okWakeUp.batch.length]
    exact placesBatch_of_run hNext hMeets' hPlace' hBody
  · rw [(hAll' _ _ hBody).1, hSent, List.nil_append, List.append_assoc]
    rfl

theorem okHead_fits : Deliverable defaultBufSize [okHead.bytes] := ⟨by decide, by decide, trivial⟩

theorem okBody_fits : Deliverable defaultBufSize [[120]] := ⟨by decide, by decide, trivial⟩

/-- The head in one delivery, which the client refuses. -/
def refusedWakeUp : ProxyWakeUp := rowWakeUp [okHead.bytes] (fun _ => .eagain) okHead_fits single_few

def bodyWakeUp : ProxyWakeUp := rowWakeUp [[120]] (fun _ => .eagain) okBody_fits single_few

/-- A head that the client refuses leaves the connection waiting for one. -/
theorem refusedWakeUp_parsed {c : ProxyConn} (hWaits : c.status = lProxyWaitingResponse) :
    ∃ c', ProxyDataComing refusedWakeUp c .parsed c' ∧ c'.pair = (c.setStatus lProxyWaitingResponse).pair := by
  obtain ⟨rv, r, hRecv⟩ := refusedWakeUp.receives c.mem
  have hStatus : statusBehindRecv rv c.status = lProxyWaitingResponse := by
    rw [hRecv.status_eagain rfl, hWaits, ite_self]
  have hUnread : (refusedWakeUp.head r).buf.unread (refusedWakeUp.head r).mem = okHead.bytes ++ [] := by
    rw [hRecv.head_unread, List.append_nil]
    rfl
  have hLength := congrArg List.length hUnread
  rw [LtBuffer.unread, length_slice] at hLength
  obtain ⟨h', base, fields, hAccepts, -, -, hList, hFields, -⟩ := okHead.accepted okHead_kept rfl rfl hUnread
    (hLength.trans_lt (by decide))
  obtain ⟨chains, hConstruct, hChain⟩ := constructResponseChains_built ⟨[], refusedWakeUp.chains⟩ hList
    (List.ne_nil_of_length_pos (hFields.symm ▸ Nat.one_pos))
  have hVec := hChain.outVec (by simp [responseIovecs])
  have hRefused := sendPooled_eagain hVec
  have hSend : httpSendToClient refusedWakeUp h' (c.setStatus (statusBehindRecv rv c.status)) =
      some { (c.setStatus (statusBehindRecv rv c.status)).setStatus lHttpWritingResponseHeader with
        sent := c.sent ++ [] } := by
    simp only [httpSendToClient, hConstruct, Option.bind_some, hVec]
    rw [show refusedWakeUp.writevHead _ = WritevOutcome.eagain from rfl, hRefused]
    rfl
  refine ⟨_, .parsed hRecv hStatus (.finished hAccepts hSend) ?_, rfl⟩
  change lHttpWritingResponseHeader ≠ lHttpWroteResponseHeader
  decide

/-- The client refuses the head of a response, and the body behind it is parsed as one. -/
theorem not_placesBatch_of_run :
    ¬ ∀ (x : Responses) (mem : Mem) (s : ProxyRun) (u : ProxyWakeUp) (k : Handling) (c : ProxyConn),
      Arrives (ProxyStep x) (fun _ _ => True) (.begin mem) s → s.Meets x u → u.last = .eagain →
      ProxyDataComing u s.conn k c → PlacesBatch x s u k := by
  intro hClaim
  obtain ⟨p, hRun, hStatus, hCallback⟩ := forwardedOnce_run okResponses (fun _ _ => True) (fun _ => 0) (.received [])
    trivial
  obtain ⟨c, hHead, hPair⟩ := @refusedWakeUp_parsed ⟨p, fun _ => 0, []⟩ hStatus
  have hMeets : ProxyRun.Meets okResponses ⟨⟨p, fun _ => 0, []⟩, 1, 0, false⟩ refusedWakeUp :=
    ⟨hCallback, ⟨[120], rfl⟩, fun hEnded => by cases hEnded⟩
  have hNext := hRun.next _ trivial (.wakeUp hMeets hHead)
  have hWaits : c.status = lProxyWaitingResponse := congrArg ConnPair.proxyStatus hPair
  obtain ⟨c', hBody, -⟩ := @exists_unfinished bodyWakeUp c
    (fun rv r hRecv => by rw [hRecv.status_eagain rfl, hWaits, ite_self])
    fun rv r hRecv => by
      rw [ngxHttpParseStatusLine, hRecv.head_unread]
      intro hDone
      cases hDone
  have hMeets' : ProxyRun.Meets okResponses ⟨c, 1, 0 + refusedWakeUp.batch.length, false⟩ bodyWakeUp := by
    refine ⟨?_, ⟨[], rfl⟩, fun hEnded => by cases hEnded⟩
    rw [ProxyRun.callback, hPair]
    exact hCallback
  obtain ⟨i, hi, hStart⟩ := (hClaim okResponses (fun _ => 0) _ bodyWakeUp .parsed c' hNext hMeets' rfl hBody).1 rfl
  have hFirst : i = 0 := Nat.lt_one_iff.mp hi
  subst hFirst
  have hPast : 0 + refusedWakeUp.batch.length ≠ okResponses.start 0 := by decide
  exact hPast hStart

end Leactor
