import Leactor.Http.Serving

/-! What holds in every run of the worker: a callback finds its own connection, writes only
to the socket of its pair, and does for a client what it would do if there were no other. -/
namespace Leactor

open Loop Run Memory

namespace Worker

def secondArrival : Arrival := ⟨.socket 6, some 7, .einprogress, false, false⟩

def twoClients : Worker := ((oneClient.opened 6).httpInitConnection 6 secondArrival).2

theorem step_twoClients :
    oneClient.Fits (.accept 3 [secondArrival]) ∧
      Step willingKernel nullLinks oneClient (.accept 3 [secondArrival]) twoClients :=
  ⟨⟨⟨7, by decide, by decide, rfl, by decide, by decide, Or.inl rfl⟩, trivial⟩, .accept ⟨_, rfl, rfl⟩ rfl⟩

theorem arrives_twoClients : Arrives (Step willingKernel nullLinks) Fits freshWorker twoClients :=
  .next _ (arrives_oneClient willingKernel nullLinks) step_twoClients.1 step_twoClients.2

/-- The first client has got its response, and its connection and its pair are still there. -/
structure Answered (w : Worker) : Prop where
  up : w.taken 5 = getRound.up
  down : w.taken 4 = getRound.down
  reports : w.Reports 5 (.proxyDataComing 1)
  client : ∃ c, w.conns.get? 0 = some c
  proxy : ∃ c, w.conns.get? 1 = some c ∧ c.fd = 5

/-- The first of two clients can be served. -/
theorem exists_answered :
    ∃ (ask : WorkerAction) (answer : ProxyWakeUp) (w w' : Worker),
      getRound.actions.map (PairAction.on 4 5) = [ask, .response 5 answer] ∧ twoClients.Fits ask ∧
      Step willingKernel nullLinks twoClients ask w ∧
      Step willingKernel nullLinks w (.response 5 answer) w' ∧ w'.Answered := by
  have hClient : twoClients.conns.get? 0 = some ⟨4, some 1, some 1, lConnectingAccepted⟩ := rfl
  have hProxy : twoClients.conns.get? 1 = some ⟨5, some 2, some 0, lProxyConnecting⟩ := rfl
  obtain ⟨callback, hAttends⟩ := (wired_of_run arrives_twoClients).attends rfl hClient hProxy
    (Option.some_ne_none _) (Option.some_ne_none _)
  have hServed := List.forall_mem_singleton.mp getRound_served
  obtain ⟨w', c', hTrail, hAlone, hLast⟩ := hAttends.round willingKernel nullLinks rfl hServed
    (fun _ _ => rfl) (List.forall_mem_singleton.mp getRound_onePool) (fun _ _ _ => rfl) rfl
  have hDone := hServed.exchanged (fun _ _ => rfl) (fun _ _ _ => rfl) rfl hAlone
  obtain ⟨x, hx, -⟩ := hLast.shows.client
  obtain ⟨y, hy, hFd, -⟩ := hLast.shows.proxy
  have hAnswered : w'.Answered :=
    ⟨hLast.shows.written.trans hDone.written, hLast.shows.sent.trans hDone.sent, hLast.proxy, ⟨x, hx⟩, y, hy, hFd⟩
  cases hTrail with
  | cons hFits hAsk hRest =>
      cases hRest with
      | cons _ hAnswer hNil =>
          cases hNil
          exact ⟨_, _, _, _, rfl, hFits, hAsk, hAnswer, hAnswered⟩

theorem exists_arrives_answered :
    ∃ w, Arrives (Step willingKernel nullLinks) Fits freshWorker w ∧ w.Answered := by
  obtain ⟨ask, answer, w₁, w, -, hFits, hAsk, hAnswer, hAnswered⟩ := exists_answered
  have hRun := arrives_twoClients.next ask hFits hAsk
  exact ⟨w, hRun.next (.response 5 answer) trivial hAnswer, hAnswered⟩

section Run

variable {k : Kernel} {junk : Nat → Nat → Nat → LtChain} {w w' : Worker} {a : WorkerAction} {i : Nat}

/-- In every run a callback is called for the one connection whose socket is reported,
and this connection and its pair point at each other. No other connection ever has this
socket. -/
theorem callbacks_of_run {p : Nat → Nat} {ev : Nat → EventT} {tail : Option Nat} {fds : Nat → Int}
    {handlers : Nat → Handler} {blocks : Nat → ConnectionT} {listenFd : Int} {refused : Bool}
    (hRun : Arrives (Step k junk) Fits
      (httpWorkerNew ⟨Base.ltBaseInit p ev tail, fds, fun _ => none⟩ handlers blocks listenFd refused) w)
    {fd : Int} {callback : Handler} (hReports : w.Reports fd callback) :
    callback = .startAccept ∧ fd = w.listenFd ∨
      ∃ i c d, w.conns.get? i = some c ∧ c.fd = fd ∧ callback.Serves i ∧ c.pair = some (partner i) ∧
        w.conns.get? (partner i) = some d ∧ d.pair = some i ∧
        ∀ j x, w.conns.get? j = some x → x.fd = fd → j = i := by
  have hWired := wired_of_run hRun
  refine (hWired.reported hReports).imp_right ?_
  rintro ⟨i, c, hc, rfl, hServes⟩
  obtain ⟨d, hd⟩ := hWired.paired hc
  refine ⟨i, c, d, hc, rfl, hServes, hWired.pair i c hc, hd, ?_, fun j x hx hFd => hWired.apart j i x c hx hc hFd⟩
  rw [hWired.pair _ d hd, partner_partner]

theorem callbacks_of_run_twoClients :
    ∃ w : Worker, w.taken 4 = getRound.down ∧
      (Handler.proxyDataComing 1 = .startAccept ∧ (5 : Int) = w.listenFd ∨
        ∃ i c d, w.conns.get? i = some c ∧ c.fd = 5 ∧ (Handler.proxyDataComing 1).Serves i ∧
          c.pair = some (partner i) ∧ w.conns.get? (partner i) = some d ∧ d.pair = some i ∧
          ∀ j x, w.conns.get? j = some x → x.fd = 5 → j = i) := by
  obtain ⟨w, hRun, hAnswered⟩ := exists_arrives_answered
  exact ⟨w, hAnswered.down, callbacks_of_run hRun hAnswered.reports⟩

/-- In every run the sockets are matched for good, and a callback writes only to the
socket that is matched with the one it was called for. A later client does not take over
a pair. -/
theorem isolated_of_run {p : Nat → Nat} {ev : Nat → EventT} {tail : Option Nat} {fds : Nat → Int}
    {handlers : Nat → Handler} {blocks : Nat → ConnectionT} {listenFd : Int} {refused : Bool}
    (hRun : Arrives (Step k junk) Fits
      (httpWorkerNew ⟨Base.ltBaseInit p ev tail, fds, fun _ => none⟩ handlers blocks listenFd refused) w)
    (hFits : w.Fits a) (hStep : Step k junk w a w') :
    (∀ fd, w'.taken fd ≠ w.taken fd → w.PairedSockets a.fd fd) ∧
      ∀ fd fd', w.PairedSockets fd fd' → w'.PairedSockets fd fd' ∧ w.PairedSockets fd' fd ∧ fd ≠ fd' ∧
        ∀ fd'', w.PairedSockets fd fd'' → fd'' = fd' := by
  have hWired := wired_of_run hRun
  obtain ⟨-, ⟨-, hGrown⟩ | ⟨i, c, hc, hFd, hTouches⟩⟩ := hWired.step hFits hStep
  · refine ⟨fun fd hNe => absurd (congrFun hGrown.taken fd) hNe, fun fd fd' hPaired => ?_⟩
    obtain ⟨hSymm, hNe⟩ := hWired.pairedSockets_symm hPaired
    exact ⟨hGrown.pairedSockets hPaired, hSymm, hNe, fun fd'' => hWired.pairedSockets_unique hPaired⟩
  · refine ⟨fun fd hNe => ?_, fun fd fd' hPaired => ?_⟩
    · rw [← hFd]
      exact (hWired.pairedSockets_iff hc).mpr (hTouches.traffic fd (Or.inl hNe))
    · obtain ⟨hSymm, hNe⟩ := hWired.pairedSockets_symm hPaired
      exact ⟨hTouches.pairedSockets hPaired, hSymm, hNe, fun fd'' => hWired.pairedSockets_unique hPaired⟩

theorem isolated_of_run_twoClients :
    ∃ w w' : Worker, w'.taken 4 = getRound.down ∧ (∀ fd, w'.taken fd ≠ w.taken fd → w.PairedSockets 5 fd) ∧
      ∀ fd fd', w.PairedSockets fd fd' → w'.PairedSockets fd fd' ∧ w.PairedSockets fd' fd ∧ fd ≠ fd' ∧
        ∀ fd'', w.PairedSockets fd fd'' → fd'' = fd' := by
  obtain ⟨ask, answer, w, w', -, hFits, hAsk, hAnswer, hAnswered⟩ := exists_answered
  have hRun := arrives_twoClients.next _ hFits hAsk
  exact ⟨w, w', hAnswered.down, isolated_of_run (a := .response 5 answer) hRun trivial hAnswer⟩

/-- From every state that a run reaches on, whatever other clients do: what the sockets of a
client and its upstream take, and the chains that are built for it, are those of a run of
these two alone, on what comes to the two sockets. -/
theorem alone_of_run {p : Nat → Nat} {ev : Nat → EventT} {tail : Option Nat} {fds : Nat → Int}
    {handlers : Nat → Handler} {blocks : Nat → ConnectionT} {listenFd : Int} {refused : Bool}
    (hRun : Arrives (Step k junk) Fits
      (httpWorkerNew ⟨Base.ltBaseInit p ev tail, fds, fun _ => none⟩ handlers blocks listenFd refused) w)
    {client proxy : ConnectionT} (hEven : i % 2 = 0) (hClient : w.conns.get? i = some client)
    (hPair : client.pair.bind w.conns.get? = some proxy) {as : List WorkerAction}
    (hTrail : Trail (Step k junk) Fits w as w') :
    ∃ c', Trail (PairStep (k.writev proxy.fd) (junk i)) (fun _ _ => True) (w.view i client proxy)
        (as.filterMap (WorkerAction.own client.fd proxy.fd)) c' ∧
      w'.taken client.fd = c'.sent ∧ w'.taken proxy.fd = c'.pair.written ∧ w'.handed i = c'.pair.handed := by
  have hWired := wired_of_run hRun
  rw [hWired.pair i client hClient, Option.bind_some] at hPair
  obtain ⟨c', hAlone, hShows⟩ := (shows_view hClient hPair).run hWired hEven hTrail
  exact ⟨c', hAlone, hShows.sent, hShows.written, hShows.handed⟩

theorem alone_of_run_twoClients :
    ∃ (w' : Worker) (c' : ProxyConn), w'.taken 5 = getRound.up ∧
      Trail (PairStep (willingKernel.writev 5) (nullLinks 0)) (fun _ _ => True)
        (oneClient.view 0 ⟨4, some 1, some 1, lConnectingAccepted⟩ ⟨5, some 2, some 0, lProxyConnecting⟩)
        getRound.actions c' ∧
      w'.taken 4 = c'.sent ∧ w'.taken 5 = c'.pair.written ∧ w'.handed 0 = c'.pair.handed := by
  obtain ⟨ask, answer, w, w', hActions, hFits, hAsk, hAnswer, hAnswered⟩ := exists_answered
  -- the second client comes in between
  have hTrail : Trail (Step willingKernel nullLinks) Fits oneClient
      (.accept 3 [secondArrival] :: getRound.actions.map (PairAction.on 4 5)) w' := by
    rw [hActions]
    exact .cons step_twoClients.1 step_twoClients.2 (.cons hFits hAsk (.cons trivial hAnswer (.nil w')))
  obtain ⟨c', hAlone, hTaken⟩ := alone_of_run (arrives_oneClient willingKernel nullLinks) rfl oneClient_conns.1
    oneClient_conns.2 hTrail
  exact ⟨w', c', hAnswered.up, hAlone, hTaken⟩

/-- A client's connection stays accepted in every run, so that `http_data_coming` always
parses, and a connection to an upstream has one of seven statuses, none of which is this
one. The two kinds stand in turn in the connection pool. -/
theorem statuses_of_run {p : Nat → Nat} {ev : Nat → EventT} {tail : Option Nat} {fds : Nat → Int}
    {handlers : Nat → Handler} {blocks : Nat → ConnectionT} {listenFd : Int} {refused : Bool}
    (hRun : Arrives (Step k junk) Fits
      (httpWorkerNew ⟨Base.ltBaseInit p ev tail, fds, fun _ => none⟩ handlers blocks listenFd refused) w)
    {c : ConnectionT} (hc : w.conns.get? i = some c) :
    (i % 2 = 0 → c.status = lConnectingAccepted) ∧
      (i % 2 = 1 → c.status ∈ proxyStatuses ∧ c.status ≠ lConnectingAccepted) := by
  obtain ⟨hClient, hProxy⟩ := Phased.of_run hRun i c hc
  exact ⟨hClient, fun hOdd => ⟨hProxy hOdd, ne_of_mem_of_not_mem (hProxy hOdd) (by decide)⟩⟩

theorem statuses_of_run_twoClients :
    ∃ (w : Worker) (c : ConnectionT), w.taken 4 = getRound.down ∧ w.conns.get? 1 = some c ∧
      (1 % 2 = 0 → c.status = lConnectingAccepted) ∧
      (1 % 2 = 1 → c.status ∈ proxyStatuses ∧ c.status ≠ lConnectingAccepted) := by
  obtain ⟨w, hRun, hAnswered⟩ := exists_arrives_answered
  obtain ⟨c, hc, -⟩ := hAnswered.proxy
  exact ⟨w, c, hAnswered.down, hc, statuses_of_run hRun hc⟩

/-- In every run each chain is offered to the upstream's socket exactly once: there were as
many calls of `writev` as chains, and the socket took a front of each chain and never the
rest of one. -/
theorem offered_of_run {p : Nat → Nat} {ev : Nat → EventT} {tail : Option Nat} {fds : Nat → Int}
    {handlers : Nat → Handler} {blocks : Nat → ConnectionT} {listenFd : Int} {refused : Bool}
    (hRun : Arrives (Step k junk) Fits
      (httpWorkerNew ⟨Base.ltBaseInit p ev tail, fds, fun _ => none⟩ handlers blocks listenFd refused) w)
    {i : Nat} {client proxy : ConnectionT} (hEven : i % 2 = 0) (hClient : w.conns.get? i = some client)
    (hPair : client.pair.bind w.conns.get? = some proxy) :
    w.calls proxy.fd = (w.handed i).length ∧ ∃ counts : List Nat, counts.length = (w.handed i).length ∧
      w.taken proxy.fd = (List.zipWith List.take counts (w.handed i)).flatten := by
  obtain ⟨hWired, hAccounted⟩ := hRun.all (I := fun v => v.Wired ∧ v.Accounted)
    ⟨wired_httpWorkerNew p ev tail fds handlers blocks listenFd refused, List.nodup_singleton _,
      fun _ _ => ⟨rfl, rfl⟩, fun _ _ => rfl, fun i client proxy _ hClient => by cases hClient⟩
    fun v a v' ⟨hWired, hAccounted⟩ hFits hStep =>
      ⟨(hWired.step hFits hStep).1, hAccounted.step hWired hFits hStep⟩
  rw [hWired.pair i client hClient] at hPair
  exact hAccounted.offers i client proxy hEven hClient hPair

theorem offered_of_run_twoClients :
    ∃ w : Worker, w.taken 5 = getRound.up ∧ w.calls 5 = (w.handed 0).length ∧
      ∃ counts : List Nat, counts.length = (w.handed 0).length ∧
        w.taken 5 = (List.zipWith List.take counts (w.handed 0)).flatten := by
  obtain ⟨w, hRun, hAnswered⟩ := exists_arrives_answered
  obtain ⟨client, hClient⟩ := hAnswered.client
  obtain ⟨proxy, hProxy, hFd⟩ := hAnswered.proxy
  have hPair : client.pair.bind w.conns.get? = some proxy := by
    rw [(wired_of_run hRun).pair 0 client hClient]
    exact hProxy
  have hOffered := offered_of_run hRun rfl hClient hPair
  rw [hFd] at hOffered
  exact ⟨w, hAnswered.up, hOffered⟩

end Run

end Worker

end Leactor
