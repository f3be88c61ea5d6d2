import Leactor.Http.Ledger
import Leactor.Http.Rounds

/-! The worker serves: as long as its sockets are in epoll, the rounds of a client can be
made, one callback after another. -/
namespace Leactor

open Loop Run Memory

namespace Worker

section Polled

variable {w : Worker} {g : Int} {callback : Handler}

/-- A changed event is reported for the same socket, with its new callback; the other
reports stay. -/
theorem Wired.reports_ltIoMod (h : w.Wired) {i : Nat} {c : ConnectionT} (hc : w.conns.get? i = some c)
    (next : Handler) (flag : Nat) (refused : Bool) (hReports : w.Reports g callback) :
    (w.ltIoMod c.ev flag next refused).Reports g (if g = c.fd then next else callback) := by
  obtain ⟨x, hx, rfl⟩ := hReports
  obtain ⟨hArmed, hFd⟩ := h.reports.only g x hx
  cases hEv : c.ev with
  | none =>
      rw [if_neg]
      · exact ⟨x, hx, rfl⟩
      · rintro rfl
        rw [h.ev_of_table hc hx] at hEv
        cases hEv
  | some e =>
      have hOwn := (h.event i c e hc hEv).2.1
      have hTable := w.poller.table_call (.mod e flag noTimeout ⟨0, 0⟩ true refused) g
      by_cases hHere : g = c.fd
      · subst hHere
        obtain rfl : x.data = e := Option.some.inj ((h.ev_of_table hc hx).symm.trans hEv)
        rw [if_pos rfl]
        have hSome := hx.trans_ne (Option.some_ne_none x)
        by_cases hRefused : refused = false
        · exact ⟨_, hTable.trans (if_pos ⟨hOwn.symm, hSome, hRefused⟩), Function.update_self _ _ _⟩
        · exact ⟨x, hTable.trans ((if_neg fun hAll => hRefused hAll.2.2).trans hx), Function.update_self _ _ _⟩
      · rw [if_neg hHere]
        have hOther : x.data ≠ e := fun hEq => hHere (hFd.symm.trans ((congrArg _ hEq).trans hOwn))
        refine ⟨x, hTable.trans ((if_neg fun hAll => hHere (hAll.1.trans hOwn)).trans hx), ?_⟩
        exact Function.update_of_ne hOther _ _

theorem Wired.reports_settleSend (h : w.Wired) (conn pair : Nat) (fd : Int) (posted : Handler) (res : Res)
    (hReports : w.Reports g callback) : (w.settleSend conn pair fd posted res).Reports g callback := by
  cases res with
  | lagain =>
      obtain ⟨x, hx, rfl⟩ := hReports
      obtain ⟨hArmed, -⟩ := h.reports.only g x hx
      exact ⟨x, hx, Function.update_of_ne hArmed.1.ne _ _⟩
  | _ => exact hReports

end Polled

section Send

variable {k : Kernel} {junk : Nat → Nat → Nat → LtChain} {w w' : Worker} {i : Nat} {fd fd' g : Int} {c : ProxyConn}
  {callback : Handler} {d : Head}

/-- Behind `http_send_to_upstream` the pair's socket is reported to `proxy_data_coming`. -/
theorem Wired.reports_httpSendToUpstream (h : w.Wired) {client proxy : ConnectionT}
    (hClient : w.conns.get? i = some client) (hProxy : w.conns.get? (partner i) = some proxy)
    {chains : Arena LtChain} {outChain : Nat} (hSend : Worker.httpSendToUpstream k i d chains outChain w = some w')
    (hReports : w.Reports g callback) :
    w'.Reports g (if g = proxy.fd then .proxyDataComing (partner i) else callback) := by
  rw [Worker.httpSendToUpstream, hClient, Option.bind_some, h.pair i client hClient] at hSend
  obtain ⟨e, -, hSend⟩ := Option.bind_eq_some_iff.mp hSend
  rw [Option.bind_some, hProxy, Option.bind_some] at hSend
  obtain ⟨vec, -, hSend⟩ := Option.bind_eq_some_iff.mp hSend
  obtain ⟨result, -, rfl⟩ := Option.map_eq_some_iff.mp hSend
  generalize (iovBytes d.mem vec.1).take _ = bytes
  generalize k.refused proxy.fd (w.calls proxy.fd) = refused
  have hPosted : (Handler.resendChains i d result.2.1 outChain).Posted := trivial
  generalize Handler.resendChains i d result.2.1 outChain = posted at hPosted ⊢
  have hTook := h.of_wiring (w.wiring_took proxy.fd bytes)
  have hTouches := (w.touches_took hProxy bytes).trans
    ((w.took proxy.fd bytes).touches_settleSend i proxy.fd posted result.1)
  obtain ⟨y, hy, hLinks⟩ := hTouches.exists_links hProxy
  have hKept := hTook.reports_settleSend i (partner i) proxy.fd posted result.1 hReports
  have hMod := (hTook.settleSend posted hPosted i (partner i) proxy.fd result.1).reports_ltIoMod hy
    (.proxyDataComing (partner i)) (lvFdrd ||| lvConn) refused hKept
  rwa [show y.ev = proxy.ev from congrArg (·.2.1) hLinks, show y.fd = proxy.fd from congrArg (·.1) hLinks] at hMod

theorem Wired.reports_sendRequest (h : w.Wired) {client proxy : ConnectionT} (hClient : w.conns.get? i = some client)
    (hProxy : w.conns.get? (partner i) = some proxy) (hSend : Worker.sendRequest k junk i d w = some w')
    (hReports : w.Reports g callback) :
    w'.Reports g (if g = proxy.fd then .proxyDataComing (partner i) else callback) := by
  obtain ⟨built, -, hSend⟩ := Option.bind_eq_some_iff.mp hSend
  obtain ⟨vec, -, hSend⟩ := Option.bind_eq_some_iff.mp hSend
  exact (h.of_wiring (w.wiring_handing i _)).reports_httpSendToUpstream hClient hProxy hSend hReports

/-- The worker sends what the pair alone would send. -/
theorem Shows.exists_httpSendToUpstream (h : w.Shows i fd fd' c) (hWired : w.Wired) (hEven : i % 2 = 0)
    {chains : Arena LtChain} {outChain : Nat} {p : ConnPair}
    (hSend : Leactor.httpSendToUpstream (k.writev fd') d chains outChain c.pair = some p) :
    ∃ w', Worker.httpSendToUpstream k i d chains outChain w = some w' := by
  obtain ⟨x, hx, rfl, -⟩ := h.client
  obtain ⟨y, hy, rfl, -⟩ := h.proxy
  obtain ⟨e, hEv⟩ := Option.ne_none_iff_exists'.mp (hWired.client i x hEven hx)
  obtain ⟨vec, hVec, hSend⟩ := Option.bind_eq_some_iff.mp hSend
  obtain ⟨result, hResult, -⟩ := Option.map_eq_some_iff.mp hSend
  rw [← h.calls] at hResult
  refine Option.ne_none_iff_exists'.mp ?_
  simp only [Worker.httpSendToUpstream, hx, hEv, hWired.pair i x hx, hy, hVec, hResult, Option.bind_some,
    Option.map_some, ne_eq, reduceCtorEq, not_false_eq_true]

theorem Shows.exists_sendRequest (h : w.Shows i fd fd' c) (hWired : w.Wired) (hEven : i % 2 = 0) {p : ConnPair}
    (hSend : Leactor.sendRequest (k.writev fd') (junk i) d c.pair = some p) :
    ∃ w', Worker.sendRequest k junk i d w = some w' := by
  obtain ⟨built, hBuilt, hSend⟩ := Option.bind_eq_some_iff.mp hSend
  obtain ⟨vec, hVec, hSend⟩ := Option.bind_eq_some_iff.mp hSend
  have hShows := h.handing (iovBytes d.mem vec.1)
  obtain ⟨w', hHere⟩ := hShows.exists_httpSendToUpstream (hWired.of_wiring (w.wiring_handing i _)) hEven hSend
  refine ⟨w', ?_⟩
  rw [Worker.sendRequest, h.handed, hBuilt, Option.bind_some, hVec, Option.bind_some, hHere]

end Send

/-- The client `i` and its pair look like `c`, and epoll reports their sockets, the pair's
to `callback`. -/
structure Attends (w : Worker) (i : Nat) (fd fd' : Int) (c : ProxyConn) (callback : Handler) : Prop where
  wired : w.Wired
  shows : w.Shows i fd fd' c
  client : w.Reports fd (.httpDataComing i)
  proxy : w.Reports fd' callback

section Serve

variable {k : Kernel} {junk : Nat → Nat → Nat → LtChain} {w : Worker} {i : Nat} {fd fd' : Int} {c : ProxyConn}
  {callback : Handler}

/-- A finished request is passed on, and the pair waits for its response. -/
theorem Attends.sendRequest (h : w.Attends i fd fd' c callback) (hEven : i % 2 = 0) {d : Head} {p : ConnPair}
    (hSend : Leactor.sendRequest (k.writev fd') (junk i) d c.pair = some p) :
    ∃ w', Worker.sendRequest k junk i d w = some w' ∧
      w'.Attends i fd fd' { c with pair := p } (.proxyDataComing (partner i)) := by
  obtain ⟨w', hHere⟩ := h.shows.exists_sendRequest h.wired hEven hSend
  obtain ⟨p', hAlone, hShows⟩ := h.shows.sendRequest h.wired hHere
  obtain rfl := Option.some.inj (hSend.symm.trans hAlone)
  obtain ⟨x, hx, rfl, -⟩ := h.shows.client
  obtain ⟨y, hy, rfl, -⟩ := h.shows.proxy
  have hNe : x.fd ≠ y.fd := fun hSame => partner_ne i (h.wired.apart _ _ y x hy hx hSame.symm)
  have hReports := h.wired.reports_sendRequest hx hy hHere h.client
  have hReports' := h.wired.reports_sendRequest hx hy hHere h.proxy
  rw [if_neg hNe] at hReports
  rw [if_pos rfl] at hReports'
  exact ⟨w', hHere, (h.wired.sendRequest hx hEven hHere).1, hShows, hReports, hReports'⟩

/-- A wake-up of the client with whole requests comes back, in the worker and in the
pair alone, and leaves the pair waiting for the response. -/
theorem Attends.request (h : w.Attends i fd fd' c callback) (hEven : i % 2 = 0) {u : ClientWakeUp}
    {reqs : List RequestText} (hAsks : u.Asks reqs) (hLinks : ∀ n m, (junk i n m).next = none)
    (hFew : ∀ x ∈ reqs, x.OnePool) (hWritev : ∀ n w, w ≠ [] → k.writev fd' n w = .wrote w.length)
    (hStatus : c.pair.clientStatus = lConnectingAccepted) :
    ∃ w' c', Step k junk w (.request fd u) w' ∧ PairStep (k.writev fd') (junk i) c (.request u) c' ∧
      w'.Attends i fd fd' c' (.proxyDataComing (partner i)) := by
  obtain ⟨x, hx, hFd, hClient⟩ := h.shows.client
  obtain ⟨rv, s, hRecv⟩ := u.receives u.mem
  obtain ⟨h', hAlone⟩ := (hAsks.pipeline hRecv hWritev (junk i) c.pair).1 (chainsEnd_of_null hLinks hFew)
  obtain ⟨w', hReturns, handler, hAttends, hHandler⟩ := requestTurn_simulates (Worker.sendRequest k junk i)
    (R := fun p v => ∃ handler, v.Attends i fd fd' { c with pair := p } handler ∧
      (c.pair.handed.length < p.handed.length → handler = .proxyDataComing (partner i)))
    (fun d p v p' hRel hSend => by
      obtain ⟨handler, hHere, -⟩ := hRel
      obtain ⟨v', hCall, hNext⟩ := hHere.sendRequest hEven hSend
      exact ⟨v', hCall, _, hNext, fun _ => rfl⟩) hAlone (v := w)
    ⟨callback, h, fun hLt => absurd hLt (lt_irrefl _)⟩
  have hLength : c.pair.handed.length < (c.pair.forwardedAll reqs).handed.length := by
    rw [(c.pair.forwardedAll_counts reqs).2.2, List.length_append, List.length_map]
    have hSome := List.length_pos_iff.mpr hAsks.nonempty
    omega
  rw [hHandler hLength] at hAttends
  have hStep : Step k junk w (.request fd u) w' :=
    .request h.client (.parsed hx (hClient.trans hStatus) hRecv hReturns)
  obtain ⟨c', hShows, hOwn⟩ := h.shows.step h.wired hEven (a := .request fd u) trivial hStep
  rw [WorkerAction.own, if_pos rfl] at hOwn
  exact ⟨w', c', hStep, hOwn, hAttends.wired, hShows, hAttends.client, hAttends.proxy⟩

/-- A wake-up of the upstream that the pair alone would come back from comes back. -/
theorem Attends.response (h : w.Attends i fd fd' c (.proxyDataComing (partner i))) (hEven : i % 2 = 0)
    {u : ProxyWakeUp} {c₁ : ProxyConn} (hAlone : PairStep (k.writev fd') (junk i) c (.response u) c₁) :
    ∃ w' c', Step k junk w (.response fd' u) w' ∧ PairStep (k.writev fd') (junk i) c (.response u) c' ∧
      w'.Attends i fd fd' c' (.proxyDataComing (partner i)) := by
  obtain ⟨x, hx, hFd, -⟩ := h.shows.client
  obtain ⟨y, hy, -, hProxy⟩ := h.shows.proxy
  have hBack : y.pair = some i := by rw [h.wired.pair _ y hy, partner_partner]
  cases hAlone with
  | @response _ mem handling _ hCall =>
      have hOn := hCall.onPair (w.proxyConn y x mem).pair
      have hView : { c with mem := mem }.onPair (w.proxyConn y x mem).pair = w.proxyConn y x mem := by
        simp only [ProxyConn.onPair, proxyConn, ProxyConn.status, hProxy, ← h.shows.sent, hFd]
      rw [hView] at hOn
      have hStep : Step k junk w (.response fd' u) _ := .response h.proxy (.call hy hBack hx hOn)
      obtain ⟨c', hShows, hOwn⟩ := h.shows.step h.wired hEven (a := .response fd' u) trivial hStep
      rw [WorkerAction.own, if_pos rfl] at hOwn
      exact ⟨_, c', hStep, hOwn, (h.wired.step (a := .response fd' u) trivial hStep).1, hShows, h.client, h.proxy⟩

/-- Wake-ups of the client with whole requests come back one after another. -/
theorem Attends.asks (h : w.Attends i fd fd' c callback) (hEven : i % 2 = 0)
    {asks : List (ClientWakeUp × List RequestText)} (hAsks : ∀ x ∈ asks, x.1.Asks x.2) (hSome : asks ≠ [])
    (hLinks : ∀ n m, (junk i n m).next = none) (hFew : ∀ x ∈ asks, ∀ y ∈ x.2, y.OnePool)
    (hWritev : ∀ n w, w ≠ [] → k.writev fd' n w = .wrote w.length)
    (hStatus : c.pair.clientStatus = lConnectingAccepted) :
    ∃ w' c', Trail (Step k junk) Fits w (asks.map fun x => .request fd x.1) w' ∧
      Trail (PairStep (k.writev fd') (junk i)) (fun _ _ => True) c (asks.map fun x => .request x.1) c' ∧
      w'.Attends i fd fd' c' (.proxyDataComing (partner i)) := by
  induction asks generalizing w c callback with
  | nil => exact absurd rfl hSome
  | cons x asks ih =>
      rw [List.forall_mem_cons] at hAsks hFew
      obtain ⟨w₁, c₁, hStep, hAlone, hNext⟩ := h.request hEven hAsks.1 hLinks hFew.1 hWritev hStatus
      have hAccepted := (c.pair.forwardedAll_status hAsks.1.nonempty).1
      rw [← (hAlone.asks hAsks.1 hLinks hWritev hStatus).1] at hAccepted
      cases asks with
      | nil => exact ⟨w₁, c₁, .cons trivial hStep (.nil w₁), .cons trivial hAlone (.nil c₁), hNext⟩
      | cons y asks =>
          obtain ⟨w', c', hTrail, hTrail', hLast⟩ := ih hNext hAsks.2 (List.cons_ne_nil y asks) hFew.2 hAccepted
          exact ⟨w', c', .cons trivial hStep hTrail, .cons trivial hAlone hTrail', hLast⟩

/-- The callbacks of a round come back one after another: the requests of the client
first, and then the response, however it is cut. -/
theorem Attends.round (k : Kernel) (junk : Nat → Nat → Nat → LtChain) (h : w.Attends i fd fd' c callback)
    (hEven : i % 2 = 0) {r : ServiceRound} (hServed : r.Served)
    (hLinks : ∀ n m, (junk i n m).next = none) (hFew : r.OnePool)
    (hWritev : ∀ n w, w ≠ [] → k.writev fd' n w = .wrote w.length)
    (hStatus : c.pair.clientStatus = lConnectingAccepted) :
    ∃ w' c', Trail (Step k junk) Fits w (r.actions.map (PairAction.on fd fd')) w' ∧
      Trail (PairStep (k.writev fd') (junk i)) (fun _ _ => True) c r.actions c' ∧
      w'.Attends i fd fd' c' (.proxyDataComing (partner i)) := by
  obtain ⟨w₁, c₁, hAsked, hAlone, hNext⟩ := h.asks hEven hServed.asks hServed.asked hLinks hFew hWritev hStatus
  have hWaits := (exchanged_asks hServed.asks hServed.asked hLinks hWritev hStatus hAlone).2
  have hPasses : PassesOn (k.writev fd') (junk i) _ _ _ _ :=
    passesOn_of_cutInPlace r.head r.body hServed.bytes hServed.takes hServed.cut
  obtain ⟨w', c', hAnswered, hAlone', hLast⟩ :
      ∃ w' c', Trail (Step k junk) Fits w₁ ((r.wakes.map .response).map (PairAction.on fd fd')) w' ∧
        Trail (PairStep (k.writev fd') (junk i)) (fun _ _ => True) c₁ (r.wakes.map .response) c' ∧
        w'.Attends i fd fd' c' (.proxyDataComing (partner i)) :=
    (hPasses c₁ hWaits).1.lift (PairAction.on fd fd')
      (R := fun (w : Worker) c => w.Attends i fd fd' c (.proxyDataComing (partner i)))
      (fun w c b c' hMem hHere hStep => by
        obtain ⟨u, -, rfl⟩ := List.mem_map.mp hMem
        obtain ⟨w', c', hCall, hPair, hNext⟩ := hHere.response hEven hStep
        exact ⟨w', c', trivial, hCall, hPair, hNext⟩) hNext
  refine ⟨w', c', ?_, hAlone.append hAlone', hLast⟩
  rw [ServiceRound.actions, List.map_append, List.map_map]
  exact hAsked.append hAnswered

/-- Rounds come back one after another. -/
theorem Attends.rounds (k : Kernel) (junk : Nat → Nat → Nat → LtChain) (h : w.Attends i fd fd' c callback)
    (hEven : i % 2 = 0) {rounds : List ServiceRound} (hServed : ∀ r ∈ rounds, r.Served)
    (hLinks : ∀ n m, (junk i n m).next = none) (hFew : ∀ r ∈ rounds, r.OnePool) (hWritev : ∀ n w, w ≠ [] → k.writev fd' n w = .wrote w.length)
    (hStatus : c.pair.clientStatus = lConnectingAccepted) :
    ∃ w' c', Trail (Step k junk) Fits w ((rounds.flatMap ServiceRound.actions).map (PairAction.on fd fd')) w' ∧
      Trail (PairStep (k.writev fd') (junk i)) (fun _ _ => True) c (rounds.flatMap ServiceRound.actions) c' ∧
      w'.Shows i fd fd' c' := by
  induction rounds generalizing w c callback with
  | nil => exact ⟨w, c, .nil w, .nil c, h.shows⟩
  | cons r rounds ih =>
      rw [List.forall_mem_cons] at hServed hFew
      obtain ⟨w₁, c₁, hHere, hAlone, hNext⟩ := h.round k junk hEven hServed.1 hLinks hFew.1 hWritev hStatus
      have hAccepted := (hServed.1.exchanged hLinks hWritev hStatus hAlone).accepted
      obtain ⟨w', c', hLater, hAlone', hShows⟩ := ih hNext hServed.2 hFew.2 hAccepted
      refine ⟨w', c', ?_, ?_, hShows⟩
      · rw [List.flatMap_cons, List.map_append]
        exact hHere.append hLater
      · rw [List.flatMap_cons]
        exact hAlone.append hAlone'

/-- The client of a connection whose socket is in epoll is reported to `http_data_coming`. -/
theorem Wired.attends (h : w.Wired) {client proxy : ConnectionT} (hEven : i % 2 = 0)
    (hClient : w.conns.get? i = some client) (hProxy : w.conns.get? (partner i) = some proxy)
    (hFd : w.poller.table client.fd ≠ none) (hFd' : w.poller.table proxy.fd ≠ none) :
    ∃ callback, w.Attends i client.fd proxy.fd (w.view i client proxy) callback := by
  obtain ⟨x, hx⟩ := Option.ne_none_iff_exists'.mp hFd
  obtain ⟨y, hy⟩ := Option.ne_none_iff_exists'.mp hFd'
  refine ⟨w.handlers y.data, h, shows_view hClient hProxy, ⟨x, hx, ?_⟩, y, hy, rfl⟩
  obtain ⟨-, -, hServes⟩ := h.event i client x.data hClient (h.ev_of_table hClient hx)
  cases hHandler : w.handlers x.data with
  | httpDataComing conn =>
      rw [hHandler] at hServes
      rw [hServes.1]
  | proxyConnectWritable conn =>
      rw [hHandler] at hServes
      exact absurd hServes.2 (by omega)
  | proxyDataComing conn =>
      rw [hHandler] at hServes
      exact absurd hServes.2 (by omega)
  | _ =>
      rw [hHandler] at hServes
      exact absurd hServes id

end Serve

section Runs

variable {k : Kernel} {junk : Nat → Nat → Nat → LtChain} {w w' : Worker}

/-- Whatever other clients and upstreams do meanwhile, rounds leave behind what they pass on. -/
theorem Wired.served (hWired : w.Wired) (hPhased : w.Phased) {i : Nat} {client proxy : ConnectionT}
    (hEven : i % 2 = 0) (hClient : w.conns.get? i = some client) (hPair : client.pair.bind w.conns.get? = some proxy)
    (hLinks : ∀ n m, (junk i n m).next = none) (hWritev : ∀ n w, w ≠ [] → k.writev proxy.fd n w = .wrote w.length)
    {as : List WorkerAction} (hTrail : Trail (Step k junk) Fits w as w') {ready : List Bool}
    {rounds : List ServiceRound} (hServed : ∀ r ∈ rounds, r.Served)
    (hOwn : as.filterMap (WorkerAction.own client.fd proxy.fd) =
      ready.map .writable ++ rounds.flatMap ServiceRound.actions) :
    w'.taken proxy.fd = w.taken proxy.fd ++ rounds.flatMap ServiceRound.up ∧
      w'.taken client.fd = w.taken client.fd ++ rounds.flatMap ServiceRound.down := by
  have hStatus := (hPhased i client hClient).1 hEven
  rw [hWired.pair i client hClient, Option.bind_some] at hPair
  obtain ⟨c', hAlone, hShows⟩ := (shows_view hClient hPair).run hWired hEven hTrail
  rw [hOwn] at hAlone
  obtain ⟨c₁, hReady, hRounds⟩ := hAlone.split
  have hFirst := exchanged_writable hStatus hReady
  have hAll := hFirst.trans (exchanged_rounds hServed hLinks hWritev hFirst.accepted hRounds)
  exact ⟨hShows.written.trans hAll.written, hShows.sent.trans hAll.sent⟩

end Runs

def getRound : ServiceRound where
  asks := [(oneBatch getRequest.text.bytes ⟨by decide, by decide, trivial⟩, [getRequest.text])]
  head := okHead
  body := [120]
  wakes := [okWakeUp]

theorem getRound_served : ∀ r ∈ [getRound], r.Served := by
  refine List.forall_mem_singleton.mpr ⟨List.cons_ne_nil _ _, List.forall_mem_singleton.mpr ?_, rfl, ?_, ?_⟩
  · exact ⟨List.cons_ne_nil _ _, rfl, by decide, by decide, rfl⟩
  · exact List.forall_mem_singleton.mpr ⟨fun _ _ => rfl, fun _ _ => rfl⟩
  · exact ⟨[], okWakeUp, [], [], rfl, List.forall_mem_nil _, ⟨⟨⟨[120], rfl⟩, by decide, okHead_kept, rfl, rfl⟩, rfl⟩,
      List.forall_mem_nil _, List.forall_mem_nil _⟩

theorem getRound_onePool : ∀ r ∈ [getRound], r.OnePool :=
  List.forall_mem_singleton.mpr (List.forall_mem_singleton.mpr (List.forall_mem_singleton.mpr (by decide)))

/-- The first client can be served. -/
theorem exists_trail_oneClient {rounds : List ServiceRound} (hServed : ∀ r ∈ rounds, r.Served)
    (hFew : ∀ r ∈ rounds, r.OnePool) :
    ∃ w', Trail (Step willingKernel nullLinks) Fits oneClient
      ((rounds.flatMap ServiceRound.actions).map (PairAction.on 4 5)) w' := by
  obtain ⟨hClient, hProxy⟩ := oneClient_conns
  obtain ⟨callback, hAttends⟩ := (wired_of_run (arrives_oneClient willingKernel nullLinks)).attends rfl hClient hProxy
    (Option.some_ne_none _) (Option.some_ne_none _)
  obtain ⟨w', -, hTrail, -⟩ := hAttends.rounds willingKernel nullLinks rfl hServed (fun _ _ => rfl) hFew
    (fun _ _ _ => rfl) rfl
  exact ⟨w', hTrail⟩

end Worker

end Leactor
