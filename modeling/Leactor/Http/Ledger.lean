import Leactor.Http.Exchange

/-! What a run of the worker leaves behind: whose sockets it holds, in which phases its
connections are, and what became of the chains. -/
namespace Leactor

open Loop Run Memory

/-- The sockets that the turns of `start_accept` come to hold: a client's and its upstream's
for every client in front of the first `EAGAIN`. -/
def admitted : List Arrival → List Int
  | [] => []
  | a :: arrivals =>
      match a.accept with
      | .socket fd => fd :: (a.socket.toList ++ admitted arrivals)
      | .econnaborted => admitted arrivals
      | _ => []

def WorkerAction.admits : WorkerAction → List Int
  | .accept _ arrivals => admitted (arrivals.take Worker.somaxconn)
  | _ => []

def proxyStatuses : List Int :=
  [lProxyConnecting, lProxyConnected, lProxyWaitingResponse, lProxyWriting, lProxyError, lProxyClosing,
    lHttpWroteResponseHeader]

theorem statusBehindRecv_mem (rv : Int) {status : Int} (h : status ∈ proxyStatuses) :
    statusBehindRecv rv status ∈ proxyStatuses := by
  unfold statusBehindRecv
  split_ifs
  · decide
  · decide
  · decide
  · exact h

theorem statusBehindSend_mem (res : Res) : statusBehindSend res ∈ proxyStatuses := by
  cases res <;> decide

section Statuses

variable {u : ProxyWakeUp} {h g : Head} {c c' : ProxyConn}

theorem ProcessesResponse.status_mem (hLine : ProcessesResponse u h c g c') (hBefore : c.status ∈ proxyStatuses) :
    c'.status ∈ proxyStatuses := by
  cases hLine with
  | unfinished => exact hBefore
  | finished _ hSend =>
      obtain ⟨built, -, hSend⟩ := Option.bind_eq_some_iff.mp hSend
      obtain ⟨vec, -, hSend⟩ := Option.bind_eq_some_iff.mp hSend
      obtain ⟨result, -, rfl⟩ := Option.map_eq_some_iff.mp hSend
      exact statusBehindSend_mem result.1

/-- The status that `proxy_data_coming` leaves. -/
theorem ProxyDataComing.status_mem {handling : Handling} (hCall : ProxyDataComing u c handling c')
    (hBefore : c.status ∈ proxyStatuses) : c'.status ∈ proxyStatuses := by
  have hRecv : ∀ rv, (c.setStatus (statusBehindRecv rv c.status)).status ∈ proxyStatuses := fun rv =>
    statusBehindRecv_mem rv hBefore
  cases hCall with
  | parsed _ hStatus hLine hOther =>
      have hMem := hLine.status_mem (hRecv _)
      exact hMem
  | begun _ hStatus hLine hWrote hBody =>
      obtain ⟨res, bufs', -, rfl⟩ := hBody
      have hMem := hLine.status_mem (hRecv _)
      exact hMem
  | relayed _ hStatus hBody =>
      obtain ⟨res, bufs', -, rfl⟩ := hBody
      exact hRecv _
  | dropped => exact hRecv _

end Statuses

namespace Worker

section Admitted

variable {k : Kernel} {junk : Nat → Nat → Nat → LtChain} {w w' : Worker}

/-- The sockets of the connections that `http_init_connection` makes come behind those that there are. -/
theorem fds_httpInitConnection (w : Worker) (fd : Int) {fd' : Int} {a : Arrival} (hSocket : a.socket = some fd') :
    (w.httpInitConnection fd a).2.conns.cells.map ConnectionT.fd = w.conns.cells.map ConnectionT.fd ++ [fd, fd'] := by
  obtain ⟨-, client, proxy, hConns, rfl, -, -, -, rfl, -⟩ := w.conns_httpInitConnection fd hSocket
  rw [Arena.cells_eq_append_pair hConns, List.map_append]
  rfl

/-- What the turns of `start_accept` add to the sockets of the process and of the connections. -/
theorem sockets_acceptTurns {n : Nat} {arrivals : List Arrival} {rv : Int} (hGrants : w.Grants (arrivals.take n))
    (hNodup : w.sockets.Nodup) (hCall : w.acceptTurns n arrivals = .returned rv w') :
    w'.sockets = w.sockets ++ admitted (arrivals.take n) ∧ w'.sockets.Nodup ∧
      w'.conns.cells.map ConnectionT.fd = w.conns.cells.map ConnectionT.fd ++ admitted (arrivals.take n) := by
  induction n generalizing w arrivals with
  | zero =>
      cases hCall
      exact ⟨(List.append_nil _).symm, hNodup, (List.append_nil _).symm⟩
  | succ n ih =>
      cases arrivals with
      | nil =>
          cases hCall
          exact ⟨(List.append_nil _).symm, hNodup, (List.append_nil _).symm⟩
      | cons a arrivals =>
          rw [acceptTurns] at hCall
          rw [List.take_succ_cons, Grants] at hGrants
          rw [List.take_succ_cons, admitted]
          cases hAccept : a.accept with
          | socket fd =>
              rw [hAccept] at hCall hGrants
              obtain ⟨⟨fd', hPos, hFd, hSocket, hFd', hNe, -⟩, hRest⟩ := hGrants
              obtain ⟨hAgain, hAbort, hError⟩ := ltAccept_socket hPos
              simp only [if_neg hAgain, if_neg hAbort, if_neg hError] at hCall
              have hSockets : ((w.opened fd).httpInitConnection fd a).2.sockets = w.sockets ++ [fd, fd'] :=
                ((w.opened fd).poller_httpInitConnection fd hSocket).2.2.2.trans (List.append_assoc _ _ _)
              have hNodup' : (w.sockets ++ [fd, fd']).Nodup := by
                refine hNodup.append (by simpa using Ne.symm hNe) fun x hx hx' => ?_
                rcases List.mem_pair.mp hx' with rfl | rfl
                · exact hFd hx
                · exact hFd' hx
              obtain ⟨hAll, hEnd, hFds⟩ := ih hRest (hSockets ▸ hNodup') hCall
              rw [hSockets] at hAll
              rw [fds_httpInitConnection _ fd hSocket] at hFds
              simp only [hSocket, Option.toList_some, List.singleton_append]
              exact ⟨by rw [hAll, List.append_assoc]; rfl, hEnd, by rw [hFds, List.append_assoc]; rfl⟩
          | eagain =>
              rw [hAccept] at hCall
              cases hCall
              exact ⟨(List.append_nil _).symm, hNodup, (List.append_nil _).symm⟩
          | econnaborted =>
              rw [hAccept] at hCall hGrants
              exact ih hGrants hNodup hCall
          | error =>
              rw [hAccept] at hCall
              cases hCall

/-- A callback of a connection keeps the sockets. -/
theorem Touches.fds {i : Nat} (h : w.Touches w' i) :
    w'.conns.cells.map ConnectionT.fd = w.conns.cells.map ConnectionT.fd := by
  refine List.ext_getElem? fun m => ?_
  have hLinks := congrArg (Option.map Prod.fst) (h.links m)
  rw [Option.map_map, Option.map_map] at hLinks
  rw [List.getElem?_map, List.getElem?_map]
  exact hLinks

/-- What a step adds to the sockets of the process and of the connections. -/
theorem Wired.sockets_step {a : WorkerAction} (h : w.Wired) (hFits : w.Fits a) (hNodup : w.sockets.Nodup)
    (hStep : Step k junk w a w') :
    w'.sockets = w.sockets ++ a.admits ∧ w'.sockets.Nodup ∧
      w'.conns.cells.map ConnectionT.fd = w.conns.cells.map ConnectionT.fd ++ a.admits := by
  cases a with
  | accept fd arrivals =>
      cases hStep with
      | accept hReports hCall => exact sockets_acceptTurns hFits hNodup hCall
  | _ =>
      obtain ⟨-, ⟨⟨_, _, hAccept⟩, -⟩ | ⟨i, c, -, -, hTouches⟩⟩ := h.step hFits hStep
      · cases hAccept
      · change w'.sockets = w.sockets ++ [] ∧ _ ∧ _ = _ ++ []
        rw [List.append_nil, List.append_nil, hTouches.sockets]
        exact ⟨rfl, hNodup, hTouches.fds⟩

/-- A row of steps adds the sockets of all clients that it lets in. -/
theorem Wired.sockets_trail {as : List WorkerAction} (h : w.Wired) (hNodup : w.sockets.Nodup)
    (hTrail : Trail (Step k junk) Fits w as w') :
    w'.sockets = w.sockets ++ as.flatMap WorkerAction.admits ∧ w'.sockets.Nodup ∧
      w'.conns.cells.map ConnectionT.fd = w.conns.cells.map ConnectionT.fd ++ as.flatMap WorkerAction.admits := by
  induction hTrail with
  | nil => exact ⟨(List.append_nil _).symm, hNodup, (List.append_nil _).symm⟩
  | @cons w w₁ w' a as hFits hStep _ ih =>
      obtain ⟨hSockets, hNodup₁, hFds⟩ := h.sockets_step hFits hNodup hStep
      obtain ⟨hAll, hEnd, hFds'⟩ := ih (h.step hFits hStep).1 hNodup₁
      rw [List.flatMap_cons, ← List.append_assoc, ← List.append_assoc, ← hSockets, ← hFds]
      exact ⟨hAll, hEnd, hFds'⟩

/-- Nothing is ever closed or used again: behind every run the worker holds the listening
socket and the sockets of all clients it has let in, and its connections are on these in
the order in which they came. -/
theorem admitted_of_run {p : Nat → Nat} {ev : Nat → EventT} {tail : Option Nat} {fds : Nat → Int}
    {handlers : Nat → Handler} {blocks : Nat → ConnectionT} {listenFd : Int} {refused : Bool}
    {as : List WorkerAction}
    (hTrail : Trail (Step k junk) Fits
      (httpWorkerNew ⟨Base.ltBaseInit p ev tail, fds, fun _ => none⟩ handlers blocks listenFd refused) as w) :
    w.sockets = listenFd :: as.flatMap WorkerAction.admits ∧ w.sockets.Nodup ∧
      w.conns.cells.map ConnectionT.fd = as.flatMap WorkerAction.admits :=
  (wired_httpWorkerNew p ev tail fds handlers blocks listenFd refused).sockets_trail (List.nodup_singleton _) hTrail

theorem admitted_of_run_oneClient :
    oneClient.sockets = [3, 4, 5] ∧ oneClient.sockets.Nodup ∧ oneClient.conns.cells.map ConnectionT.fd = [4, 5] :=
  admitted_of_run (trail_oneClient willingKernel nullLinks)

end Admitted

/-- A client's connection is accepted for good, and the other ones are in a phase of their own. -/
def Phased (w : Worker) : Prop :=
  ∀ i c, w.conns.get? i = some c →
    (i % 2 = 0 → c.status = lConnectingAccepted) ∧ (i % 2 = 1 → c.status ∈ proxyStatuses)

section Phases

variable {k : Kernel} {junk : Nat → Nat → Nat → LtChain} {w w' : Worker} {i : Nat}

theorem Phased.setStatus (h : w.Phased) (j : Nat) {status : Int}
    (hStatus : (j % 2 = 0 → status = lConnectingAccepted) ∧ (j % 2 = 1 → status ∈ proxyStatuses)) :
    (w.setStatus j status).Phased := by
  intro i c hc
  rw [get?_setStatus] at hc
  split_ifs at hc with hHere
  · obtain ⟨d, -, rfl⟩ := Option.map_eq_some_iff.mp hc
    exact hHere ▸ hStatus
  · exact h i c hc

theorem upstreamStatus_mem (res : Res) : upstreamStatus res ∈ proxyStatuses := by
  cases res <;> decide

theorem Phased.settleSend (h : w.Phased) (hEven : i % 2 = 0) (fd : Int) (posted : Handler) (res : Res) :
    (w.settleSend i (partner i) fd posted res).Phased := by
  have hOdd := partner_odd hEven
  have hPair : ∀ v : Worker, v.Phased → (v.setStatus (partner i) (upstreamStatus res)).Phased := fun v hv =>
    hv.setStatus _ ⟨fun hNot => by omega, fun _ => upstreamStatus_mem res⟩
  cases res with
  | lok => exact hPair _ (h.setStatus i ⟨fun _ => rfl, fun hNot => by omega⟩)
  | lagain => exact hPair _ h
  | _ => exact hPair _ h

theorem Phased.httpSendToUpstream (h : w.Phased) (hWired : w.Wired) (hEven : i % 2 = 0) {d : Head}
    {chains : Arena LtChain} {outChain : Nat} (hSend : Worker.httpSendToUpstream k i d chains outChain w = some w') :
    w'.Phased := by
  obtain ⟨client, hClient, hSend⟩ := Option.bind_eq_some_iff.mp hSend
  obtain ⟨e, -, hSend⟩ := Option.bind_eq_some_iff.mp hSend
  rw [hWired.pair i client hClient, Option.bind_some] at hSend
  obtain ⟨proxy, -, hSend⟩ := Option.bind_eq_some_iff.mp hSend
  obtain ⟨vec, -, hSend⟩ := Option.bind_eq_some_iff.mp hSend
  obtain ⟨result, -, rfl⟩ := Option.map_eq_some_iff.mp hSend
  have hTook : (w.took proxy.fd ((iovBytes d.mem vec.1).take
      (k.writev proxy.fd (w.calls proxy.fd) (iovBytes d.mem vec.1)).count)).Phased := h
  have hSettled := hTook.settleSend hEven proxy.fd (.resendChains i d result.2.1 outChain) result.1
  cases hEv : proxy.ev with
  | none => exact hSettled
  | some e => exact hSettled

theorem Phased.sendRequest (h : w.Phased) (hWired : w.Wired) (hEven : i % 2 = 0) {d : Head}
    (hSend : Worker.sendRequest k junk i d w = some w') : w'.Phased := by
  obtain ⟨built, -, hSend⟩ := Option.bind_eq_some_iff.mp hSend
  obtain ⟨vec, -, hSend⟩ := Option.bind_eq_some_iff.mp hSend
  have hHanding : (w.handing i (iovBytes d.mem vec.1)).Phased := h
  exact hHanding.httpSendToUpstream (hWired.of_wiring (w.wiring_handing i _)) hEven hSend

theorem Phased.httpInitConnection (h : w.Phased) (hEven : w.conns.fresh % 2 = 0) (fd : Int) {fd' : Int} {a : Arrival}
    (hSocket : a.socket = some fd') : (w.httpInitConnection fd a).2.Phased := by
  obtain ⟨-, client, proxy, hConns, -, -, -, hAccepted, -, -, -, hStatus⟩ := w.conns_httpInitConnection fd hSocket
  intro i c hc
  rw [hConns] at hc
  split_ifs at hc with hi hi'
  · cases hc
    exact ⟨fun _ => hAccepted, fun hOdd => by omega⟩
  · cases hc
    refine ⟨fun hNot => by omega, fun _ => ?_⟩
    rw [hStatus]
    split_ifs <;> decide
  · exact h i c hc

theorem Phased.startAccept {arrivals : List Arrival} {rv : Int} (h : w.Phased) (hWired : w.Wired)
    (hGrants : w.Grants (arrivals.take somaxconn)) (hCall : w.startAccept arrivals = .returned rv w') : w'.Phased := by
  refine (startAccept_keeps (I := fun v => v.Wired ∧ v.Phased) hGrants hCall ⟨hWired, h⟩ ?_).2
  rintro v a fd fd' ⟨hWired, hPhased⟩ hGranted
  have hOpened : (v.opened fd).Phased := hPhased
  exact ⟨hWired.granted hGranted, hOpened.httpInitConnection hWired.even fd hGranted.socket⟩

/-- A step keeps the phases, one case for each callback. An upstream's connection moves
on in its phases; a client's stays accepted. -/
theorem Phased.step (h : w.Phased) (hWired : w.Wired) {a : WorkerAction} (hFits : w.Fits a)
    (hStep : Step k junk w a w') : w'.Phased := by
  cases hStep with
  | accept hReports hCall => exact h.startAccept hWired hFits hCall
  | @request fd u conn _ hReports hCall =>
      rcases hWired.reported hReports with ⟨hNot, -⟩ | ⟨i, c, -, -, rfl, hEven⟩
      · cases hNot
      cases hCall with
      | @parsed client _ _ _ _ _ hConn hStatus hRecv hLine =>
          refine (requestTurn_keeps (I := fun v => v.Wired ∧ v.Phased ∧ v.conns.get? conn ≠ none)
            (fun d v v' hKept hSend => ?_) hLine ⟨hWired, h, hConn.trans_ne (Option.some_ne_none client)⟩).2.1
          obtain ⟨hv, hPhased, hSome⟩ := hKept
          obtain ⟨x, hx⟩ := Option.ne_none_iff_exists'.mp hSome
          obtain ⟨hNext, hTouches⟩ := hv.sendRequest hx hEven hSend
          obtain ⟨y, hy, -⟩ := hTouches.exists_links hx
          exact ⟨hNext, hPhased.sendRequest hv hEven hSend, hy.trans_ne (Option.some_ne_none y)⟩
      | ignored => exact h
  | @writable fd connected conn hReports =>
      rcases hWired.reported hReports with ⟨hNot, -⟩ | ⟨i, c, -, -, rfl, hOdd⟩
      · cases hNot
      cases connected with
      | false => exact h
      | true => exact h.setStatus conn ⟨fun hEven => by omega, fun _ => by decide⟩
  | @response fd u conn _ hReports hCall =>
      rcases hWired.reported hReports with ⟨hNot, -⟩ | ⟨i, c, -, -, rfl, hOdd⟩
      · cases hNot
      cases hCall with
      | call hConn hPair hClient hData =>
          exact h.setStatus conn ⟨fun hEven => by omega, fun _ => hData.status_mem ((h conn _ hConn).2 hOdd)⟩
  | resend hReports hCall =>
      rcases hWired.reported hReports with ⟨hNot, -⟩ | ⟨i, c, -, -, hServes⟩
      · cases hNot
      · exact absurd hServes id

theorem Phased.of_run {p : Nat → Nat} {ev : Nat → EventT} {tail : Option Nat} {fds : Nat → Int}
    {handlers : Nat → Handler} {blocks : Nat → ConnectionT} {listenFd : Int} {refused : Bool}
    (hRun : Arrives (Step k junk) Fits
      (httpWorkerNew ⟨Base.ltBaseInit p ev tail, fds, fun _ => none⟩ handlers blocks listenFd refused) w) :
    w.Phased := by
  refine (hRun.all (I := fun v => v.Wired ∧ v.Phased)
    ⟨wired_httpWorkerNew p ev tail fds handlers blocks listenFd refused, fun i c hc => by cases hc⟩ ?_).2
  rintro v a v' ⟨hWired, hPhased⟩ hFits hStep
  exact ⟨(hWired.step hFits hStep).1, hPhased.step hWired hFits hStep⟩

end Phases

/-- Every chain was offered to the upstream's socket once, which took a front of it. -/
def OffersOnce (calls : Nat) (written : List UInt8) (handed : List (List UInt8)) : Prop :=
  calls = handed.length ∧
    ∃ counts : List Nat, counts.length = handed.length ∧ written = (List.zipWith List.take counts handed).flatten

theorem OffersOnce.next {calls : Nat} {written : List UInt8} {handed : List (List UInt8)}
    (h : OffersOnce calls written handed) (chain : List UInt8) (n : Nat) :
    OffersOnce (calls + 1) (written ++ chain.take n) (handed ++ [chain]) := by
  obtain ⟨hCalls, counts, hCounts, rfl⟩ := h
  refine ⟨by rw [hCalls, List.length_append, List.length_singleton], counts ++ [n], ?_, ?_⟩
  · rw [List.length_append, List.length_append, hCounts, List.length_singleton, List.length_singleton]
  · rw [List.zipWith_append hCounts, List.flatten_append]
    simp

section Pair

variable {writev : Nat → List UInt8 → WritevOutcome} {junk : Nat → Nat → LtChain}

theorem offersOnce_sendRequest {g : Head} {p p' : ConnPair} (h : OffersOnce p.calls p.written p.handed)
    (hSend : Leactor.sendRequest writev junk g p = some p') : OffersOnce p'.calls p'.written p'.handed := by
  obtain ⟨built, -, hSend⟩ := Option.bind_eq_some_iff.mp hSend
  obtain ⟨vec, hVec, hSend⟩ := Option.bind_eq_some_iff.mp hSend
  have hCall := hSend
  obtain ⟨vec', hVec', hSend⟩ := Option.bind_eq_some_iff.mp hSend
  obtain rfl := Option.some.inj (hVec.symm.trans hVec')
  obtain ⟨result, hResult, -⟩ := Option.map_eq_some_iff.mp hSend
  obtain ⟨q, hSame, -, -, hCalls, hWritten, hHanded⟩ := exists_httpSendToUpstream hVec hResult
  obtain rfl := Option.some.inj (hCall.symm.trans hSame)
  rw [hCalls, hWritten, hHanded]
  exact h.next _ _

/-- A step of the pair offers what it builds, and nothing else. -/
theorem offersOnce_pairStep {c c' : ProxyConn} {a : PairAction} (hStep : PairStep writev junk c a c')
    (h : OffersOnce c.pair.calls c.pair.written c.pair.handed) :
    OffersOnce c'.pair.calls c'.pair.written c'.pair.handed := by
  cases hStep with
  | request hCall =>
      cases hCall with
      | parsed hStatus hRecv hLine =>
          refine requestTurn_keeps (I := fun s : Handing => OffersOnce s.pair.calls s.pair.written s.pair.handed)
            (fun d s s' hKept hSend => ?_) hLine h
          obtain ⟨p, hCall, rfl⟩ := Option.map_eq_some_iff.mp hSend
          exact offersOnce_sendRequest hKept hCall
      | ignored => exact h
  | writable connected => cases connected <;> exact h
  | response hCall =>
      rw [hCall.pair_eq]
      exact h

end Pair

/-- The account of a worker: sockets that were never opened have taken nothing, and those
of the upstreams have been offered every chain once. -/
structure Accounted (w : Worker) : Prop where
  nodup : w.sockets.Nodup
  idle : ∀ fd, fd ∉ w.sockets → w.calls fd = 0 ∧ w.taken fd = []
  unbuilt : ∀ i, w.conns.fresh ≤ i → w.handed i = []
  offers : ∀ i client proxy, i % 2 = 0 → w.conns.get? i = some client → w.conns.get? (partner i) = some proxy →
    OffersOnce (w.calls proxy.fd) (w.taken proxy.fd) (w.handed i)

section Account

variable {k : Kernel} {junk : Nat → Nat → Nat → LtChain} {w w' : Worker} {a : WorkerAction}

/-- A client that is there is followed by its pair alone. -/
theorem Accounted.offers_step (h : w.Accounted) (hWired : w.Wired) (hFits : w.Fits a) (hStep : Step k junk w a w')
    {i : Nat} {client proxy proxy' : ConnectionT} (hEven : i % 2 = 0) (hClient : w.conns.get? i = some client)
    (hProxy : w.conns.get? (partner i) = some proxy) (hProxy' : w'.conns.get? (partner i) = some proxy') :
    OffersOnce (w'.calls proxy'.fd) (w'.taken proxy'.fd) (w'.handed i) := by
  obtain ⟨c', hShows, hOwn⟩ := (shows_view hClient hProxy).step hWired hEven hFits hStep
  have hBefore := h.offers i client proxy hEven hClient hProxy
  have hBehind : OffersOnce c'.pair.calls c'.pair.written c'.pair.handed := by
    cases hMine : a.own client.fd proxy.fd with
    | none =>
        rw [hMine] at hOwn
        obtain rfl : c' = w.view i client proxy := hOwn
        exact hBefore
    | some b =>
        rw [hMine] at hOwn
        exact offersOnce_pairStep hOwn hBefore
  obtain ⟨y, hy, hFd, -⟩ := hShows.proxy
  obtain rfl := Option.some.inj (hProxy'.symm.trans hy)
  rwa [hFd, hShows.calls, hShows.written, hShows.handed]

/-- The sockets of new connections were not open before. -/
theorem fd_notMem_of_fresh (hSockets : w'.sockets = w.sockets ++ a.admits) (hNodup : w'.sockets.Nodup)
    (hFds : w'.conns.cells.map ConnectionT.fd = w.conns.cells.map ConnectionT.fd ++ a.admits) {i : Nat}
    {c : ConnectionT} (hc : w'.conns.get? i = some c) (hi : w.conns.fresh ≤ i) : c.fd ∉ w.sockets := by
  have hHere := congrArg (·[i]?) hFds
  simp only [List.getElem?_map] at hHere
  rw [List.getElem?_append_right ((List.length_map _).le.trans hi), show w'.conns.cells[i]? = some c from hc] at hHere
  have hMem := List.mem_of_getElem? hHere.symm
  rw [hSockets] at hNodup
  exact fun hOld => List.disjoint_of_nodup_append hNodup hOld hMem

theorem Accounted.step (h : w.Accounted) (hWired : w.Wired) (hFits : w.Fits a) (hStep : Step k junk w a w') :
    w'.Accounted := by
  obtain ⟨hSockets, hNodup, hFds⟩ := hWired.sockets_step hFits h.nodup hStep
  have hFresh : w.conns.fresh ≤ w'.conns.fresh := by
    have hLength := congrArg List.length hFds
    simp only [List.length_map, List.length_append] at hLength
    rw [Arena.fresh, Arena.fresh]
    omega
  obtain ⟨hWired', hKind⟩ := hWired.step hFits hStep
  have hIdle : ∀ fd, fd ∉ w.sockets → w'.calls fd = 0 ∧ w'.taken fd = [] := by
    intro fd hFd
    rcases hKind with ⟨-, hGrown⟩ | ⟨i, c, -, -, hTouches⟩
    · rw [hGrown.calls, hGrown.taken]
      exact h.idle fd hFd
    · by_contra hNot
      have hChange : w'.taken fd ≠ w.taken fd ∨ w'.calls fd ≠ w.calls fd := by
        obtain ⟨hCalls, hTaken⟩ := h.idle fd hFd
        rw [← hCalls, ← hTaken] at hNot
        tauto
      obtain ⟨d, hd, rfl⟩ := hTouches.traffic fd hChange
      exact hFd (hWired.socket _ d hd).1
  have hUnbuilt : ∀ i, w.conns.fresh ≤ i → w'.handed i = [] := by
    intro i hi
    rcases hKind with ⟨-, hGrown⟩ | ⟨m, c, hc, -, hTouches⟩
    · rw [hGrown.handed]
      exact h.unbuilt i hi
    · rw [hTouches.handed i fun hEq => absurd (Arena.lt_fresh hc) (by omega)]
      exact h.unbuilt i hi
  refine ⟨hNodup, fun fd hFd => hIdle fd fun hMem => hFd ?_, fun i hi => hUnbuilt i (hFresh.trans hi),
    fun i client proxy hEven hClient hProxy => ?_⟩
  · rw [hSockets]
    exact List.mem_append_left _ hMem
  · rcases Nat.lt_or_ge i w.conns.fresh with hi | hi
    · obtain ⟨x, hx⟩ := Option.ne_none_iff_exists'.mp fun hNone => absurd (Arena.get?_eq_none_iff.mp hNone)
        (not_le.mpr hi)
      obtain ⟨y, hy⟩ := hWired.paired hx
      exact h.offers_step hWired hFits hStep hEven hx hy hProxy
    · -- a new client, whose upstream has taken nothing
      have hPair : w.conns.fresh ≤ partner i := by
        rw [partner, if_pos hEven]
        omega
      obtain ⟨hCalls, hTaken⟩ := hIdle proxy.fd (fd_notMem_of_fresh hSockets hNodup hFds hProxy hPair)
      rw [hCalls, hTaken, hUnbuilt i hi]
      exact ⟨rfl, [], rfl, rfl⟩

end Account

end Worker

end Leactor
