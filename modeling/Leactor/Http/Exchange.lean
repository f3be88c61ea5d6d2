import Leactor.Http.WorkerRun

/-! One client among many: what the worker does for a client and its upstream is what
it would do for these two alone. -/
namespace Leactor

open Loop Run Memory

/-- What comes to a client's connection and its pair. -/
inductive PairAction where
  | request (u : ClientWakeUp)
  | writable (connected : Bool)
  | response (u : ProxyWakeUp)

/-- The callbacks of a client's connection and its pair, which have no other sockets to
write to. Every wake-up has memory of its own. -/
inductive PairStep (writev : Nat → List UInt8 → WritevOutcome) (junk : Nat → Nat → LtChain) (c : ProxyConn) :
    PairAction → ProxyConn → Prop where
  | request {u : ClientWakeUp} {requests requests' : List (List UInt8)} {p : ConnPair}
      (hCall : HttpDataComing writev junk u ⟨c.pair, requests⟩ ⟨p, requests'⟩) :
      PairStep writev junk c (.request u) { c with pair := p }
  | writable (connected : Bool) :
      PairStep writev junk c (.writable connected) (if connected then c.setStatus lProxyConnected else c)
  | response {u : ProxyWakeUp} {mem : Mem} {handling : Handling} {c' : ProxyConn}
      (hCall : ProxyDataComing u { c with mem := mem } handling c') : PairStep writev junk c (.response u) c'

/-- What the worker's step is to the client with the socket `fd` and the upstream's `fd'`. -/
def WorkerAction.own (fd fd' : Int) : WorkerAction → Option PairAction
  | .request g u => if g = fd then some (.request u) else none
  | .writable g connected => if g = fd' then some (.writable connected) else none
  | .response g u => if g = fd' then some (.response u) else none
  | _ => none

/-- The step on the client's socket or on the upstream's. -/
def PairAction.on (fd fd' : Int) : PairAction → WorkerAction
  | .request u => .request fd u
  | .writable connected => .writable fd' connected
  | .response u => .response fd' u

section Pair

variable {u : ProxyWakeUp} {h g : Head} {c c' : ProxyConn}

/-- The connection with another pair around its status. -/
def ProxyConn.onPair (c : ProxyConn) (p : ConnPair) : ProxyConn :=
  { c with pair := { p with proxyStatus := c.status } }

/-- Of the pair, `proxy_data_coming` reads and writes the status only. -/
theorem httpSendToClient_onPair (u : ProxyWakeUp) (h : Head) (c : ProxyConn) (p : ConnPair) :
    httpSendToClient u h (c.onPair p) = (httpSendToClient u h c).map fun c => c.onPair p := by
  simp only [httpSendToClient, Option.map_bind, Function.comp_def, Option.map_map]
  rfl

theorem ProcessesResponse.onPair (hCall : ProcessesResponse u h c g c') (p : ConnPair) :
    ProcessesResponse u h (c.onPair p) g (c'.onPair p) := by
  cases hCall with
  | unfinished hLine hRes => exact .unfinished hLine hRes
  | finished hAccepts hSend =>
      refine .finished hAccepts ?_
      rw [httpSendToClient_onPair, hSend]
      rfl

theorem SendsBody.onPair {mem : Mem} {bufs : List LtBuffer} (hCall : SendsBody u mem bufs c c') (p : ConnPair) :
    SendsBody u mem bufs (c.onPair p) (c'.onPair p) := by
  obtain ⟨res, bufs', hSend, rfl⟩ := hCall
  exact ⟨res, bufs', hSend, rfl⟩

theorem ProxyDataComing.onPair {handling : Handling} (hCall : ProxyDataComing u c handling c') (p : ConnPair) :
    ProxyDataComing u (c.onPair p) handling (c'.onPair p) := by
  cases hCall with
  | @parsed rv s h c₁ hRecv hStatus hLine hOther =>
      exact @ProxyDataComing.parsed u (c.onPair p) rv s h (c₁.onPair p) hRecv hStatus (hLine.onPair p) hOther
  | @begun rv s h c₁ _ hRecv hStatus hLine hWrote hBody =>
      exact @ProxyDataComing.begun u (c.onPair p) rv s h (c₁.onPair p) _ hRecv hStatus (hLine.onPair p) hWrote
        (hBody.onPair p)
  | relayed hRecv hStatus hBody => exact ProxyDataComing.relayed hRecv hStatus (hBody.onPair p)
  | dropped hRecv hStatus hOther => exact ProxyDataComing.dropped hRecv hStatus hOther

end Pair

namespace Worker

/-- The client at `i` and its pair, on the sockets `fd` and `fd'`, look like this. -/
structure Shows (w : Worker) (i : Nat) (fd fd' : Int) (c : ProxyConn) : Prop where
  client : ∃ x, w.conns.get? i = some x ∧ x.fd = fd ∧ x.status = c.pair.clientStatus
  proxy : ∃ y, w.conns.get? (partner i) = some y ∧ y.fd = fd' ∧ y.status = c.pair.proxyStatus
  calls : w.calls fd' = c.pair.calls
  written : w.taken fd' = c.pair.written
  handed : w.handed i = c.pair.handed
  sent : w.taken fd = c.sent

/-- What the worker holds of the client `i`, whose connection is `client` and whose pair is `proxy`. -/
def view (w : Worker) (i : Nat) (client proxy : ConnectionT) : ProxyConn where
  pair :=
    { clientStatus := client.status
      proxyStatus := proxy.status
      base := ⟨[], [], []⟩
      proxyEv := 0
      calls := w.calls proxy.fd
      written := w.taken proxy.fd
      handed := w.handed i }
  mem _ := 0
  sent := w.taken client.fd

theorem shows_view {w : Worker} {i : Nat} {client proxy : ConnectionT} (hClient : w.conns.get? i = some client)
    (hProxy : w.conns.get? (partner i) = some proxy) : w.Shows i client.fd proxy.fd (w.view i client proxy) :=
  ⟨⟨client, hClient, rfl, rfl⟩, ⟨proxy, hProxy, rfl, rfl⟩, rfl, rfl, rfl, rfl⟩

section Send

variable {k : Kernel} {junk : Nat → Nat → Nat → LtChain} {w w' : Worker} {i : Nat} {fd fd' : Int} {c : ProxyConn}

/-- The status that `http_send_to_upstream` leaves in the pair. -/
def upstreamStatus : Res → Int
  | .lok => lProxyWaitingResponse
  | .lagain => lProxyWriting
  | .lclose => lProxyClosing
  | _ => lProxyError

theorem get?_settleSend (w : Worker) (i : Nat) (fd : Int) (posted : Handler) (res : Res) :
    (w.settleSend i (partner i) fd posted res).conns.get? i =
        (w.conns.get? i).map (fun x => if res = .lok then { x with status := lConnectingAccepted } else x) ∧
      (w.settleSend i (partner i) fd posted res).conns.get? (partner i) =
        (w.conns.get? (partner i)).map fun y => { y with status := upstreamStatus res } := by
  have hNe := partner_ne i
  cases res <;> simp [settleSend, get?_setStatus, hNe, hNe.symm, upstreamStatus, ltNewPostCallback]

theorem traffic_settleSend (w : Worker) (conn pair : Nat) (fd : Int) (posted : Handler) (res : Res) :
    (w.settleSend conn pair fd posted res).calls = w.calls ∧ (w.settleSend conn pair fd posted res).taken = w.taken ∧
      (w.settleSend conn pair fd posted res).handed = w.handed := by
  cases res <;> exact ⟨rfl, rfl, rfl⟩

/-- What `http_send_to_upstream` does to the pair alone. -/
theorem exists_httpSendToUpstream {writev : Nat → List UInt8 → WritevOutcome} {g : Head} {chains : Arena LtChain}
    {outChain : Nat} {p : ConnPair} {vec : List Iovec × Option Nat} {result : Res × Arena LtChain × Option Nat}
    (hVec : outVec chains outChain = some vec)
    (hResult : sendOutChain chains outChain (writev p.calls (iovBytes g.mem vec.1)) = some result) :
    ∃ p', Leactor.httpSendToUpstream writev g chains outChain p = some p' ∧
      p'.clientStatus = (if result.1 = .lok then lConnectingAccepted else p.clientStatus) ∧
      p'.proxyStatus = upstreamStatus result.1 ∧ p'.calls = p.calls + 1 ∧
      p'.written = p.written ++ (iovBytes g.mem vec.1).take (writev p.calls (iovBytes g.mem vec.1)).count ∧
      p'.handed = p.handed := by
  simp only [Leactor.httpSendToUpstream, hVec, Option.bind_some, hResult, Option.map_some]
  obtain ⟨res, rest⟩ := result
  refine ⟨_, rfl, ?_⟩
  cases res <;> exact ⟨rfl, rfl, rfl, rfl, rfl⟩

/-- `lt_io_mod` shows in no connection and on no socket. -/
theorem shows_ltIoMod {ev : Option Nat} {flag : Nat} {callback : Handler} {refused : Bool}
    (h : w.Shows i fd fd' c) : (w.ltIoMod ev flag callback refused).Shows i fd fd' c := by
  cases ev with
  | none => exact h
  | some e => exact ⟨h.client, h.proxy, h.calls, h.written, h.handed, h.sent⟩

/-- The worker sends a chain upstream as the pair alone would. No other connection's
bytes or chains show in the view of this one. -/
theorem Shows.httpSendToUpstream (h : w.Shows i fd fd' c) (hWired : w.Wired) {g : Head} {chains : Arena LtChain}
    {outChain : Nat} (hSend : httpSendToUpstream k i g chains outChain w = some w') :
    ∃ p, Leactor.httpSendToUpstream (k.writev fd') g chains outChain c.pair = some p ∧
      w'.Shows i fd fd' { c with pair := p } := by
  obtain ⟨x, hx, rfl, hClient⟩ := h.client
  obtain ⟨y, hy, rfl, hProxy⟩ := h.proxy
  have hApart : x.fd ≠ y.fd := fun hSame => partner_ne i (hWired.apart _ _ y x hy hx hSame.symm)
  rw [Worker.httpSendToUpstream, hx, Option.bind_some, hWired.pair i x hx] at hSend
  obtain ⟨e, -, hSend⟩ := Option.bind_eq_some_iff.mp hSend
  rw [Option.bind_some, hy, Option.bind_some] at hSend
  obtain ⟨vec, hVec, hSend⟩ := Option.bind_eq_some_iff.mp hSend
  obtain ⟨result, hResult, rfl⟩ := Option.map_eq_some_iff.mp hSend
  rw [h.calls] at hResult ⊢
  obtain ⟨p, hCall, hClient', hProxy', hCalls, hWritten, hHanded⟩ := exists_httpSendToUpstream hVec hResult
  refine ⟨p, hCall, shows_ltIoMod ?_⟩
  generalize hPosted : Handler.resendChains i g result.2.1 outChain = posted
  generalize hBytes : (iovBytes g.mem vec.1).take (k.writev y.fd c.pair.calls (iovBytes g.mem vec.1)).count = bytes
  rw [hBytes] at hWritten
  obtain ⟨hHere, hPair⟩ := (w.took y.fd bytes).get?_settleSend i y.fd posted result.1
  obtain ⟨hCount, hTaken, hKept⟩ := (w.took y.fd bytes).traffic_settleSend i (partner i) y.fd posted result.1
  refine ⟨⟨_, hHere.trans (congrArg _ hx), ?_, ?_⟩, ⟨_, hPair.trans (congrArg _ hy), rfl, hProxy'.symm⟩,
    ?_, ?_, ?_, ?_⟩
  · split_ifs <;> rfl
  · rw [hClient', ← hClient]
    split_ifs <;> rfl
  · rw [hCount, hCalls, ← h.calls]
    exact Function.update_self _ _ _
  · rw [hTaken, hWritten, ← h.written]
    exact Function.update_self _ _ _
  · rw [hKept, hHanded, ← h.handed]
    rfl
  · rw [hTaken]
    exact (Function.update_of_ne hApart _ _).trans h.sent

/-- A chain that was built shows in the pair. -/
theorem Shows.handing (h : w.Shows i fd fd' c) (bytes : List UInt8) :
    (w.handing i bytes).Shows i fd fd' { c with pair := { c.pair with handed := c.pair.handed ++ [bytes] } } := by
  refine ⟨h.client, h.proxy, h.calls, h.written, ?_, h.sent⟩
  rw [← h.handed]
  exact Function.update_self _ _ _

/-- A finished request is handed on as by the pair alone. -/
theorem Shows.sendRequest (h : w.Shows i fd fd' c) (hWired : w.Wired) {g : Head}
    (hSend : sendRequest k junk i g w = some w') :
    ∃ p, Leactor.sendRequest (k.writev fd') (junk i) g c.pair = some p ∧ w'.Shows i fd fd' { c with pair := p } := by
  obtain ⟨built, hBuilt, hSend⟩ := Option.bind_eq_some_iff.mp hSend
  obtain ⟨vec, hVec, hSend⟩ := Option.bind_eq_some_iff.mp hSend
  rw [h.handed] at hBuilt
  obtain ⟨p, hCall, hNext⟩ := (h.handing _).httpSendToUpstream (hWired.of_wiring (w.wiring_handing i _)) hSend
  refine ⟨p, ?_, hNext⟩
  rw [Leactor.sendRequest, hBuilt, Option.bind_some, hVec, Option.bind_some]
  exact hCall

/-- `http_data_coming` for the client is the pair's own. -/
theorem Shows.httpDataComing {u : ClientWakeUp} (h : w.Shows i fd fd' c) (hWired : w.Wired) (hEven : i % 2 = 0)
    (hCall : HttpDataComing k junk u i w w') :
    ∃ c', PairStep (k.writev fd') (junk i) c (.request u) c' ∧ w'.Shows i fd fd' c' := by
  obtain ⟨x, hx, -, hClient⟩ := h.client
  cases hCall with
  | parsed hConn hStatus hRecv hLine =>
      obtain rfl := Option.some.inj (hx.symm.trans hConn)
      obtain ⟨s, hReturns, -, hShows⟩ := requestTurn_simulates (handRequest (k.writev fd') (junk i))
        (R := fun v (s : Handing) => v.Wired ∧ v.Shows i fd fd' { c with pair := s.pair })
        (fun g v s v' hRel hSend => by
          obtain ⟨y, hy, -⟩ := hRel.2.client
          obtain ⟨p, hCall, hNext⟩ := hRel.2.sendRequest hRel.1 hSend
          refine ⟨_, Option.map_eq_some_iff.mpr ⟨p, hCall, rfl⟩, ?_, hNext⟩
          exact (hRel.1.sendRequest hy hEven hSend).1) hLine (v := ⟨c.pair, []⟩) ⟨hWired, h⟩
      exact ⟨_, .request (.parsed (hClient.symm.trans hStatus) hRecv hReturns), hShows⟩
  | ignored hConn hStatus =>
      obtain rfl := Option.some.inj (hx.symm.trans hConn)
      have hKeeps : Leactor.HttpDataComing (k.writev fd') (junk i) u ⟨c.pair, []⟩ ⟨c.pair, []⟩ :=
        .ignored fun hAccepted => hStatus (hClient.trans hAccepted)
      exact ⟨c, .request hKeeps, h⟩

/-- `proxy_data_coming` for the upstream is the pair's own. -/
theorem Shows.proxyDataComing (k : Kernel) (junk : Nat → Nat → Nat → LtChain) {u : ProxyWakeUp}
    (h : w.Shows i fd fd' c) (hWired : w.Wired)
    (hCall : ProxyDataComing u (partner i) w w') :
    ∃ c', PairStep (k.writev fd') (junk i) c (.response u) c' ∧ w'.Shows i fd fd' c' := by
  obtain ⟨x, hx, rfl, hClient⟩ := h.client
  obtain ⟨y, hy, rfl, hProxy⟩ := h.proxy
  have hApart : x.fd ≠ y.fd := fun hSame => partner_ne i (hWired.apart _ _ y x hy hx hSame.symm)
  cases hCall with
  | @call proxy client pair mem handling c₁ hConn hPair hClient' hData =>
      obtain rfl := Option.some.inj (hy.symm.trans hConn)
      have hBack := (hWired.pair _ _ hy).symm.trans hPair
      rw [partner_partner, Option.some.injEq] at hBack
      subst hBack
      obtain rfl := Option.some.inj (hx.symm.trans hClient')
      have hOn := hData.onPair c.pair
      have hView : (w.proxyConn y x mem).onPair c.pair = { c with mem := mem } := by
        simp only [ProxyConn.onPair, proxyConn, ProxyConn.status, hProxy, h.sent]
      rw [hView] at hOn
      refine ⟨_, .response hOn, ⟨x, ?_, rfl, hClient⟩, ⟨{ y with status := c₁.status }, ?_, rfl, rfl⟩, h.calls, ?_,
        h.handed, Function.update_self _ _ _⟩
      · exact (get?_setStatus _ _ _ _).trans ((if_neg (partner_ne i)).trans hx)
      · exact (get?_setStatus _ _ _ _).trans ((if_pos rfl).trans (congrArg _ hy))
      · exact (Function.update_of_ne (Ne.symm hApart) _ _).trans h.written

theorem Shows.proxyConnectWritable (k : Kernel) (junk : Nat → Nat → Nat → LtChain) (h : w.Shows i fd fd' c)
    (connected : Bool) :
    ∃ c', PairStep (k.writev fd') (junk i) c (.writable connected) c' ∧
      (w.proxyConnectWritable (partner i) connected).Shows i fd fd' c' := by
  refine ⟨_, .writable connected, ?_⟩
  cases connected with
  | false => exact h
  | true =>
      obtain ⟨x, hx, hFd, hClient⟩ := h.client
      obtain ⟨y, hy, hFd', -⟩ := h.proxy
      refine ⟨⟨x, ?_, hFd, hClient⟩, ⟨{ y with status := lProxyConnected }, ?_, hFd', rfl⟩, h.calls, h.written,
        h.handed, h.sent⟩
      · exact (get?_setStatus _ _ _ _).trans ((if_neg (partner_ne i)).trans hx)
      · exact (get?_setStatus _ _ _ _).trans ((if_pos rfl).trans (congrArg _ hy))

/-- Callbacks of other connections do not show. -/
theorem Shows.touches (h : w.Shows i fd fd' c) (hWired : w.Wired) {j : Nat} (hTouches : w.Touches w' j) (hNe : j ≠ i)
    (hNe' : j ≠ partner i) : w'.Shows i fd fd' c := by
  obtain ⟨x, hx, rfl, hClient⟩ := h.client
  obtain ⟨y, hy, rfl, hProxy⟩ := h.proxy
  have hFar : partner j ≠ i := fun hEq => hNe' (by rw [← hEq, partner_partner])
  have hFar' : partner j ≠ partner i := fun hEq => hNe (by rw [← partner_partner j, hEq, partner_partner])
  have hSame : ∀ m d, w.conns.get? m = some d → partner j ≠ m →
      w'.taken d.fd = w.taken d.fd ∧ w'.calls d.fd = w.calls d.fd := by
    intro m d hd hOther
    by_contra hChange
    obtain ⟨d', hd', hFd⟩ := hTouches.traffic d.fd (by rwa [← not_and_or])
    exact hOther (hWired.apart _ _ d' d hd' hd hFd)
  refine ⟨⟨x, (hTouches.others i (Ne.symm hNe) (Ne.symm hFar)).trans hx, rfl, hClient⟩,
    ⟨y, (hTouches.others (partner i) (Ne.symm hNe') (Ne.symm hFar')).trans hy, rfl, hProxy⟩,
    (hSame _ y hy hFar').2.trans h.calls, (hSame _ y hy hFar').1.trans h.written,
    (hTouches.handed i (Ne.symm hNe)).trans h.handed, (hSame _ x hx hFar).1.trans h.sent⟩

theorem Shows.grown (h : w.Shows i fd fd' c) (hGrown : w.Grown w') : w'.Shows i fd fd' c := by
  obtain ⟨x, hx, hClient⟩ := h.client
  obtain ⟨y, hy, hProxy⟩ := h.proxy
  exact ⟨⟨x, hGrown.conns i x hx, hClient⟩, ⟨y, hGrown.conns _ y hy, hProxy⟩, by rw [hGrown.calls, h.calls],
    by rw [hGrown.taken, h.written], by rw [hGrown.handed, h.handed], by rw [hGrown.taken, h.sent]⟩

end Send

section Run

variable {k : Kernel} {junk : Nat → Nat → Nat → LtChain} {w w' : Worker} {i : Nat} {fd fd' : Int} {c : ProxyConn}

/-- A callback of one of the two connections is the pair's own, and any other one is nothing
to it. Which of them it is for shows in its socket, as no two connections have the same. -/
theorem Shows.callback {j m : Nat} {g : Int} {d : ConnectionT} {act : PairAction} (h : w.Shows i fd fd' c)
    (hWired : w.Wired) (hj : ∃ z, w.conns.get? j = some z ∧ z.fd = g) (hd : w.conns.get? m = some d)
    (hTouches : w.Touches w' m) (hFar : m ≠ j → m ≠ i ∧ m ≠ partner i)
    (hMine : m = j → ∃ c', PairStep (k.writev fd') (junk i) c act c' ∧ w'.Shows i fd fd' c') :
    ∃ c', w'.Shows i fd fd' c' ∧
      StepOrStay (PairStep (k.writev fd') (junk i)) (if d.fd = g then some act else none) c c' := by
  obtain ⟨z, hz, rfl⟩ := hj
  by_cases hSame : d.fd = z.fd
  · obtain ⟨c', hPair, hShows⟩ := hMine (hWired.apart m j d z hd hz hSame)
    exact ⟨c', hShows, by rwa [if_pos hSame]⟩
  · have hNe : m ≠ j := by
      rintro rfl
      exact hSame (congrArg _ (Option.some.inj (hd.symm.trans hz)))
    obtain ⟨hClient, hProxy⟩ := hFar hNe
    exact ⟨c, h.touches hWired hTouches hClient hProxy, by rw [if_neg hSame]; rfl⟩

/-- A step of the worker is a step of the pair, if it is made on one of its two sockets,
and nothing to it otherwise. -/
theorem Shows.step {a : WorkerAction} (h : w.Shows i fd fd' c) (hWired : w.Wired) (hEven : i % 2 = 0)
    (hFits : w.Fits a) (hStep : Step k junk w a w') :
    ∃ c', w'.Shows i fd fd' c' ∧ StepOrStay (PairStep (k.writev fd') (junk i)) (a.own fd fd') c c' := by
  obtain ⟨x, hx, hFd, -⟩ := h.client
  obtain ⟨y, hy, hFd', -⟩ := h.proxy
  have hOdd := partner_odd hEven
  cases hStep with
  | accept hReports hCall => exact ⟨c, h.grown (grown_startAccept hFits hCall), rfl⟩
  | @request g u conn _ hReports hCall =>
      rcases hWired.reported hReports with ⟨hNot, -⟩ | ⟨m, d, hd, rfl, rfl, hEven'⟩
      · cases hNot
      refine h.callback hWired ⟨x, hx, hFd⟩ hd (hWired.httpDataComing hEven' hCall).2
        (fun hNe => ⟨hNe, fun hEq => by omega⟩) ?_
      rintro rfl
      exact h.httpDataComing hWired hEven hCall
  | @writable g connected conn hReports =>
      rcases hWired.reported hReports with ⟨hNot, -⟩ | ⟨m, d, hd, rfl, rfl, hOdd'⟩
      · cases hNot
      refine h.callback hWired ⟨y, hy, hFd'⟩ hd (hWired.proxyConnectWritable conn connected).2
        (fun hNe => ⟨fun hEq => by omega, hNe⟩) ?_
      rintro rfl
      exact h.proxyConnectWritable k junk connected
  | @response g u conn _ hReports hCall =>
      rcases hWired.reported hReports with ⟨hNot, -⟩ | ⟨m, d, hd, rfl, rfl, hOdd'⟩
      · cases hNot
      refine h.callback hWired ⟨y, hy, hFd'⟩ hd (hWired.proxyDataComing hCall).2
        (fun hNe => ⟨fun hEq => by omega, hNe⟩) ?_
      rintro rfl
      exact h.proxyDataComing k junk hWired hCall
  | resend hReports hCall =>
      rcases hWired.reported hReports with ⟨hNot, -⟩ | ⟨m, d, -, -, hServes⟩
      · cases hNot
      · exact absurd hServes id

/-- Whatever else the worker does, a client and its upstream see a run of their own. -/
theorem Shows.run {as : List WorkerAction} (h : w.Shows i fd fd' c) (hWired : w.Wired) (hEven : i % 2 = 0)
    (hRun : Trail (Step k junk) Fits w as w') :
    ∃ c', Trail (PairStep (k.writev fd') (junk i)) (fun _ _ => True) c (as.filterMap (WorkerAction.own fd fd')) c' ∧
      w'.Shows i fd fd' c' :=
  hRun.project (PairStep (k.writev fd') (junk i)) (WorkerAction.own fd fd') (I := Wired)
    (R := fun w c => w.Shows i fd fd' c) (fun _ _ _ _ hWired hFits hStep hShows =>
    ⟨(hWired.step hFits hStep).1, hShows.step hWired hEven hFits hStep⟩) hWired h

end Run

end Worker

end Leactor
