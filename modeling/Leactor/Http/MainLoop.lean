import Leactor.Event.BaseLoop
import Leactor.Http.WorkerRun

/-! The process of main.c: `child` makes a worker and leaves it to `lt_base_loop`, whose
wake-ups come to the same as one callback after the other. -/
namespace Leactor

open Run

/-- `ev_array[i]`, the socket it is about, and what its callback will meet. -/
structure ReadyEvent extends EpollEvent where
  action : WorkerAction

/-- How `epoll_wait` returns to the worker. -/
inductive WorkerWait where
  | ready (batch : List ReadyEvent)
  | interrupted
  | failed

/-- A return of `epoll_wait`, and the time that `lt_gettime` reads behind it. -/
structure WorkerWakeUp where
  result : WorkerWait
  after : LtTime

def WorkerWakeUp.events (x : WorkerWakeUp) : List ReadyEvent :=
  match x.result with
  | .ready batch => batch
  | _ => []

/-- Where `lt_base_loop` stands with its worker. -/
inductive WorkerPhase where
  | waiting (w : Worker)
  | dispatching (nowtime : LtTime) (stage : Stage) (w : Worker) (batch : List ReadyEvent)
  | expired (w : Worker)
  | failed (w : Worker)

def WorkerPhase.worker : WorkerPhase → Worker
  | .waiting w => w
  | .dispatching _ _ w _ => w
  | .expired w => w
  | .failed w => w

def PollCall.flag : PollCall → Nat
  | .add _ flag _ _ _ _ => flag
  | .mod _ flag _ _ _ _ => flag
  | .remove _ => 0
  | .post _ => lvOneshot

/-- A call without `LV_LAG` makes no event lag. -/
theorem Poller.direct_call {w : Poller} {c : PollCall} (hDirect : c.flag &&& lvLag = 0)
    (h : ∀ e, e < w.fresh → ¬ (w.ev e).Lags) : ∀ e, e < (w.call c).fresh → ¬ ((w.call c).ev e).Lags := by
  intro e he
  have hFresh := w.fresh_call c
  have hFlag := w.flag_call c e
  have hOld : e ≠ w.fresh → e < w.fresh + 1 → (w.ev e).flag &&& lvLag = 0 := fun hNe hLt =>
    not_not.mp (h e (by omega))
  rw [EventT.Lags, hFlag, not_not]
  cases c with
  | add | post =>
      simp only at hFresh ⊢
      split_ifs with hNew
      · exact hDirect
      · exact hOld hNew (he.trans_eq hFresh)
  | mod e' =>
      simp only at hFresh ⊢
      split_ifs with hSame
      · exact hDirect
      · exact not_not.mp (h e (he.trans_eq hFresh))
  | remove => exact not_not.mp (h e (he.trans_eq hFresh))

namespace Worker

variable (k : Kernel) (junk : Nat → Nat → Nat → LtChain)

/-- `ev->callback(ev, ev->arg)`, where the callback comes back. -/
inductive Calls (w : Worker) : Handler → WorkerAction → Worker → Prop where
  | startAccept {fd rv : Int} {arrivals : List Arrival} {w' : Worker}
      (hCall : w.startAccept arrivals = .returned rv w') : Calls w .startAccept (.accept fd arrivals) w'
  | httpDataComing {fd : Int} {u : ClientWakeUp} {conn : Nat} {w' : Worker}
      (hCall : HttpDataComing k junk u conn w w') : Calls w (.httpDataComing conn) (.request fd u) w'
  | proxyConnectWritable (fd : Int) (connected : Bool) (conn : Nat) :
      Calls w (.proxyConnectWritable conn) (.writable fd connected) (w.proxyConnectWritable conn connected)
  | proxyDataComing {fd : Int} {u : ProxyWakeUp} {conn : Nat} {w' : Worker} (hCall : ProxyDataComing u conn w w') :
      Calls w (.proxyDataComing conn) (.response fd u) w'
  | resendChains {fd : Int} {conn : Nat} {h : Head} {chains : Arena LtChain} {outChain : Nat} {w' : Worker}
      (hCall : httpSendToUpstream k conn h chains outChain w = some w') :
      Calls w (.resendChains conn h chains outChain) (.resend fd) w'

def setList (w : Worker) (head tail : Option Nat) : Worker :=
  { w with poller := { w.poller with head := head, tail := tail } }

def modifyEvent (w : Worker) (e : Nat) (g : EventT → EventT) : Worker :=
  { w with poller := { w.poller with toBase := w.poller.toBase.modify e g } }

/-- Epoll holds this event for the socket. -/
def Delivers (w : Worker) (y : ReadyEvent) : Prop :=
  ∃ x, w.poller.table y.action.fd = some x ∧ x.data = y.ptr

/-- The body of the loop of `lt_ev_process_and_moveout`. -/
inductive Processes (nowtime : LtTime) (w : Worker) (e : Nat) : List WorkerAction → Worker → Prop where
  | timedOut (hTimeout : ltEvCheckTimeout (w.poller.ev e) nowtime) :
      Processes nowtime w e [] (w.modifyEvent e fun ev => { ev with deleted := 1 })
  | deleted (hTimeout : ¬ ltEvCheckTimeout (w.poller.ev e) nowtime) (hDeleted : (w.poller.ev e).deleted ≠ 0) :
      Processes nowtime w e [] w
  | called {a : WorkerAction} {w' : Worker} (hTimeout : ¬ ltEvCheckTimeout (w.poller.ev e) nowtime)
      (hDeleted : (w.poller.ev e).deleted = 0) (hFd : a.fd = w.poller.fds e) (hFits : w.Fits a)
      (hCall : Calls k junk w (w.handlers e) a w') :
      Processes nowtime w e [a] (w'.modifyEvent e fun ev => { ev with deleted := ev.flag &&& lvOneshot })

/-- A turn of the loops of `lt_base_loop`, with the callbacks that it makes. -/
inductive LoopTurn (timeout : Int) (start : LtTime) : WorkerPhase → List WorkerAction → WorkerPhase → Prop where
  | failed {w : Worker} {x : WorkerWakeUp} (hResult : x.result = .failed) :
      LoopTurn timeout start (.waiting w) [] (.failed w)
  | expired {w : Worker} {x : WorkerWakeUp} (hResult : x.result ≠ .failed)
      (hLate : timeAGtB (ltTimeASubB x.after start) timeout) : LoopTurn timeout start (.waiting w) [] (.expired w)
  | woken {w : Worker} {x : WorkerWakeUp} (hResult : x.result ≠ .failed)
      (hEarly : ¬ timeAGtB (ltTimeASubB x.after start) timeout) (hDelivers : ∀ y ∈ x.events, w.Delivers y) :
      LoopTurn timeout start (.waiting w) [] (.dispatching x.after .first w x.events)
  -- the first loop of `lt_loop_init_actlist`
  | skip {nowtime : LtTime} {w : Worker} {y : ReadyEvent} {ys : List ReadyEvent} (hReady : ¬ y.Ready) :
      LoopTurn timeout start (.dispatching nowtime .first w (y :: ys)) [] (.dispatching nowtime .first w ys)
  | direct {nowtime : LtTime} {w w' : Worker} {y : ReadyEvent} {ys : List ReadyEvent} (hReady : y.Ready)
      (hLags : ¬ (w.poller.ev y.ptr).Lags) (hFits : w.Fits y.action)
      (hCall : Calls k junk w (w.handlers y.ptr) y.action w') :
      LoopTurn timeout start (.dispatching nowtime .first w (y :: ys)) [y.action]
        (.dispatching nowtime .first w' ys)
  | defer {nowtime : LtTime} {w : Worker} {y : ReadyEvent} {ys : List ReadyEvent} (hReady : y.Ready)
      (hLags : (w.poller.ev y.ptr).Lags) :
      LoopTurn timeout start (.dispatching nowtime .first w (y :: ys)) []
        (.dispatching nowtime (.second y.ptr) (w.setList (some y.ptr) (some y.ptr)) ys)
  | ended {nowtime : LtTime} {w : Worker} :
      LoopTurn timeout start (.dispatching nowtime .first w []) []
        (.dispatching nowtime (.walk w.poller.head) (w.setList w.poller.head w.poller.head) [])
  -- the second loop of `lt_loop_init_actlist`
  | link {nowtime : LtTime} {prev : Nat} {w : Worker} {y : ReadyEvent} {ys : List ReadyEvent}
      (hDeferred : (w.poller.ev y.ptr).Lags ∧ y.Ready) :
      LoopTurn timeout start (.dispatching nowtime (.second prev) w (y :: ys)) []
        (.dispatching nowtime (.second y.ptr)
          (w.modifyEvent prev fun ev => { ev with nextActiveEv := some y.ptr }) ys)
  | late {nowtime : LtTime} {prev : Nat} {w w' : Worker} {y : ReadyEvent} {ys : List ReadyEvent}
      (hDeferred : ¬ ((w.poller.ev y.ptr).Lags ∧ y.Ready)) (hFits : w.Fits y.action)
      (hCall : Calls k junk w (w.handlers y.ptr) y.action w') :
      LoopTurn timeout start (.dispatching nowtime (.second prev) w (y :: ys)) [y.action]
        (.dispatching nowtime (.second prev) w' ys)
  | linked {nowtime : LtTime} {prev : Nat} {w : Worker} :
      LoopTurn timeout start (.dispatching nowtime (.second prev) w []) []
        (.dispatching nowtime (.walk w.poller.head) (w.setList w.poller.head (some prev)) [])
  -- `lt_ev_process_and_moveout`
  | process {nowtime : LtTime} {e : Nat} {w w' : Worker} {ys : List ReadyEvent} {as : List WorkerAction}
      (hProcess : Processes k junk nowtime w e as w') :
      LoopTurn timeout start (.dispatching nowtime (.walk (some e)) w ys) as
        (.dispatching nowtime (.walk (w'.poller.ev e).nextActiveEv) w' ys)
  | moved {nowtime : LtTime} {w : Worker} {ys : List ReadyEvent} :
      LoopTurn timeout start (.dispatching nowtime (.walk none) w ys) [] (.waiting (w.setList none none))

/-- The runs of `lt_base_loop` on a worker, with the callbacks so far. -/
inductive LtBaseLoop (timeout : Int) (start : LtTime) (w : Worker) : List WorkerAction → WorkerPhase → Prop where
  | begin : LtBaseLoop timeout start w [] (.waiting w)
  | turn {as bs : List WorkerAction} {p q : WorkerPhase} (prior : LtBaseLoop timeout start w as p)
      (hTurn : LoopTurn k junk timeout start p bs q) : LtBaseLoop timeout start w (as ++ bs) q

variable {k junk} {w w' : Worker} {a : WorkerAction}

/-- A step is a callback of the event that epoll holds for the socket. -/
theorem step_iff_calls :
    Step k junk w a w' ↔ ∃ callback, w.Reports a.fd callback ∧ Calls k junk w callback a w' := by
  constructor
  · intro hStep
    cases hStep with
    | accept hReports hCall => exact ⟨_, hReports, .startAccept hCall⟩
    | request hReports hCall => exact ⟨_, hReports, .httpDataComing hCall⟩
    | writable hReports => exact ⟨_, hReports, .proxyConnectWritable _ _ _⟩
    | response hReports hCall => exact ⟨_, hReports, .proxyDataComing hCall⟩
    | resend hReports hCall => exact ⟨_, hReports, .resendChains hCall⟩
  · rintro ⟨callback, hReports, hCalls⟩
    cases hCalls with
    | startAccept hCall => exact .accept hReports hCall
    | httpDataComing hCall => exact .request hReports hCall
    | proxyConnectWritable => exact .writable hReports
    | proxyDataComing hCall => exact .response hReports hCall
    | resendChains hCall => exact .resend hReports hCall

/-- Set `activelist.tail`, which nothing reads. -/
def withTail (w : Worker) (tail : Option Nat) : Worker := { w with poller := { w.poller with tail := tail } }

section Tail

variable {tail : Option Nat}

theorem wired_withTail (h : w.Wired) : (w.withTail tail).Wired :=
  ⟨⟨h.reports.known, h.reports.only⟩, h.owner, h.event, h.client, h.pair, h.socket, h.apart, h.even, h.listen⟩

theorem httpInitConnection_withTail (w : Worker) (tail : Option Nat) (fd : Int) (a : Arrival) :
    ((w.withTail tail).httpInitConnection fd a).2 = (w.httpInitConnection fd a).2.withTail tail := by
  unfold httpInitConnection proxyConnect
  cases a.socket with
  | none => rfl
  | some fd' => cases a.connect <;> rfl

theorem grants_withTail {arrivals : List Arrival} (h : w.Grants arrivals) : (w.withTail tail).Grants arrivals := by
  induction arrivals generalizing w with
  | nil => trivial
  | cons a arrivals ih =>
      simp only [Grants] at h ⊢
      cases hAccept : a.accept with
      | socket fd =>
          simp only [hAccept] at h ⊢
          obtain ⟨⟨fd', hGranted⟩, hRest⟩ := h
          refine ⟨⟨fd', { hGranted with }⟩, ?_⟩
          rw [show (w.withTail tail).opened fd = (w.opened fd).withTail tail from rfl, httpInitConnection_withTail]
          exact ih hRest
      | econnaborted =>
          simp only [hAccept] at h ⊢
          exact ih h
      | _ => trivial

theorem fits_withTail (h : w.Fits a) : (w.withTail tail).Fits a := by
  cases a with
  | accept => exact grants_withTail h
  | _ => exact h

theorem acceptTurns_withTail {n : Nat} {arrivals : List Arrival} {rv : Int}
    (hCall : w.acceptTurns n arrivals = .returned rv w') :
    (w.withTail tail).acceptTurns n arrivals = .returned rv (w'.withTail tail) := by
  induction n generalizing w arrivals with
  | zero =>
      cases hCall
      rfl
  | succ n ih =>
      cases arrivals with
      | nil =>
          cases hCall
          rfl
      | cons a arrivals =>
          simp only [acceptTurns] at hCall ⊢
          split_ifs at hCall ⊢ with hAgain hAbort hError
          · cases hCall
            rfl
          · exact ih hCall
          · rw [show (w.withTail tail).opened (ltAccept a.accept) = (w.opened (ltAccept a.accept)).withTail tail from rfl,
              httpInitConnection_withTail]
            exact ih hCall

theorem settleSend_withTail (w : Worker) (tail : Option Nat) (conn pair : Nat) (fd : Int) (posted : Handler)
    (res : Res) : (w.withTail tail).settleSend conn pair fd posted res =
      (w.settleSend conn pair fd posted res).withTail tail := by
  cases res <;> rfl

theorem ltIoMod_withTail (w : Worker) (tail : Option Nat) (ev : Option Nat) (flag : Nat) (callback : Handler)
    (refused : Bool) :
    (w.withTail tail).ltIoMod ev flag callback refused = (w.ltIoMod ev flag callback refused).withTail tail := by
  cases ev <;> rfl

theorem httpSendToUpstream_withTail (tail : Option Nat) {conn : Nat} {h : Head} {chains : Arena LtChain}
    {outChain : Nat} (hSend : httpSendToUpstream k conn h chains outChain w = some w') :
    httpSendToUpstream k conn h chains outChain (w.withTail tail) = some (w'.withTail tail) := by
  simp only [httpSendToUpstream, Option.bind_eq_some_iff, Option.map_eq_some_iff] at hSend ⊢
  obtain ⟨client, hClient, e, hEv, pair, hPair, proxy, hProxy, vec, hVec, result, hResult, rfl⟩ := hSend
  refine ⟨client, hClient, e, hEv, pair, hPair, proxy, hProxy, vec, hVec, result, hResult, ?_⟩
  rw [← ltIoMod_withTail, ← settleSend_withTail]
  rfl

theorem sendRequest_withTail {conn : Nat} {h : Head} (hSend : sendRequest k junk conn h w = some w') :
    sendRequest k junk conn h (w.withTail tail) = some (w'.withTail tail) := by
  simp only [sendRequest, Option.bind_eq_some_iff] at hSend ⊢
  obtain ⟨built, hBuilt, vec, hVec, hSend⟩ := hSend
  have hSend' := httpSendToUpstream_withTail tail hSend
  exact ⟨built, hBuilt, vec, hVec, hSend'⟩

theorem calls_withTail {callback : Handler} (h : Calls k junk w callback a w') :
    Calls k junk (w.withTail tail) callback a (w'.withTail tail) := by
  cases h with
  | startAccept hCall => exact .startAccept (acceptTurns_withTail hCall)
  | @httpDataComing fd u conn _ hCall =>
      refine .httpDataComing ?_
      cases hCall with
      | parsed hConn hStatus hRecv hLine =>
          obtain ⟨v, hLine', rfl⟩ := requestTurn_simulates (sendRequest k junk conn)
            (R := fun w v => v = w.withTail tail)
            (fun h w v w' hTail hSend => ⟨_, hTail ▸ sendRequest_withTail hSend, rfl⟩) hLine rfl
          exact .parsed hConn hStatus hRecv hLine'
      | ignored hConn hStatus => exact .ignored hConn hStatus
  | proxyConnectWritable fd connected conn =>
      cases connected
      · exact .proxyConnectWritable fd false conn
      · exact .proxyConnectWritable fd true conn
  | proxyDataComing hCall =>
      refine .proxyDataComing ?_
      cases hCall with
      | call hConn hPair hClient hCall => exact .call (w := w.withTail tail) hConn hPair hClient hCall
  | resendChains hCall => exact .resendChains (httpSendToUpstream_withTail tail hCall)

end Tail

structure Quiet (w : Worker) : Prop where
  direct : ∀ e, e < w.poller.fresh → ¬ (w.poller.ev e).Lags
  head : w.poller.head = none

/-- What callbacks leave to the loop: each socket in epoll keeps its event, and no event
comes to lag. -/
structure Steady (w w' : Worker) : Prop where
  data : ∀ fd x, w.poller.table fd = some x → ∃ x', w'.poller.table fd = some x' ∧ x'.data = x.data
  quiet : w.Quiet → w'.Quiet

section Steady

variable {w'' : Worker} {i : Nat} {c : ConnectionT}

theorem Steady.refl (w : Worker) : w.Steady w := ⟨fun _ x hx => ⟨x, hx, rfl⟩, id⟩

theorem Steady.trans (h : w.Steady w') (h' : w'.Steady w'') : w.Steady w'' where
  data fd x hx := by
    obtain ⟨x', hx', hData⟩ := h.data fd x hx
    obtain ⟨x'', hx'', hData'⟩ := h'.data fd x' hx'
    exact ⟨x'', hx'', hData'.trans hData⟩
  quiet := h'.quiet ∘ h.quiet

theorem Steady.of_poller (h : w'.poller = w.poller) : w.Steady w' where
  data _ x hx := ⟨x, h ▸ hx, rfl⟩
  quiet hQuiet := ⟨h ▸ hQuiet.direct, h ▸ hQuiet.head⟩

theorem steady_ltIoAdd (w : Worker) (fd : Int) {flag : Nat} (hDirect : flag &&& lvLag = 0) (callback : Handler)
    (refused : Bool) : w.Steady (w.ltIoAdd fd flag callback refused).2 where
  data g x hx := by
    have hTable := w.poller.table_call (.add fd flag noTimeout ⟨0, 0⟩ true refused) g
    refine ⟨x, hTable.trans ((if_neg fun hNew => ?_).trans hx), rfl⟩
    exact Option.some_ne_none x (hx.symm.trans hNew.2.1)
  quiet h := ⟨Poller.direct_call (c := .add fd flag noTimeout ⟨0, 0⟩ true refused) hDirect h.direct, h.head⟩

theorem steady_ltNewPostCallback (w : Worker) (callback : Handler) (fd : Int) :
    w.Steady (w.ltNewPostCallback callback fd) where
  data _ x hx := ⟨x, hx, rfl⟩
  quiet h := ⟨Poller.direct_call (c := .post fd) (rfl : lvOneshot &&& lvLag = 0) h.direct, h.head⟩

/-- Epoll holds a connection's event for its socket already. -/
theorem Wired.steady_ltIoMod (h : w.Wired) (hc : w.conns.get? i = some c) {flag : Nat}
    (hDirect : flag &&& lvLag = 0) (callback : Handler) (refused : Bool) :
    w.Steady (w.ltIoMod c.ev flag callback refused) := by
  cases hEv : c.ev with
  | none => exact .refl w
  | some e =>
      refine ⟨fun g x hx => ?_, fun hQuiet => ⟨?_, hQuiet.head⟩⟩
      · have hTable := w.poller.table_call (.mod e flag noTimeout ⟨0, 0⟩ true refused) g
        by_cases hHere : g = w.poller.fds e ∧ w.poller.table g ≠ none ∧ refused = false
        · refine ⟨_, hTable.trans (if_pos hHere), ?_⟩
          rw [hHere.1, (h.event i c e hc hEv).2.1] at hx
          exact Option.some.inj (hEv.symm.trans (h.ev_of_table hc hx))
        · exact ⟨x, hTable.trans ((if_neg hHere).trans hx), rfl⟩
      · exact Poller.direct_call (c := .mod e flag noTimeout ⟨0, 0⟩ true refused) hDirect hQuiet.direct

theorem steady_settleSend (w : Worker) (conn pair : Nat) (fd : Int) (posted : Handler) (res : Res) :
    w.Steady (w.settleSend conn pair fd posted res) := by
  cases res with
  | lagain => exact (w.steady_ltNewPostCallback posted fd).trans (.of_poller rfl)
  | _ => exact .of_poller rfl

theorem Wired.steady_httpSendToUpstream (hWired : w.Wired) (hc : w.conns.get? i = some c) {h : Head}
    {chains : Arena LtChain} {outChain : Nat}
    (hSend : Worker.httpSendToUpstream k i h chains outChain w = some w') : w.Steady w' := by
  rw [Worker.httpSendToUpstream, hc, Option.bind_some, hWired.pair i c hc] at hSend
  obtain ⟨e, -, hSend⟩ := Option.bind_eq_some_iff.mp hSend
  rw [Option.bind_some] at hSend
  obtain ⟨proxy, hProxy, hSend⟩ := Option.bind_eq_some_iff.mp hSend
  obtain ⟨vec, -, hSend⟩ := Option.bind_eq_some_iff.mp hSend
  obtain ⟨result, -, rfl⟩ := Option.map_eq_some_iff.mp hSend
  generalize (iovBytes h.mem vec.1).take _ = bytes
  have hSettled := (hWired.of_wiring (w.wiring_took proxy.fd bytes)).settleSend
    (.resendChains i h result.2.1 outChain) trivial i (partner i) proxy.fd result.1
  have hTouches := (w.touches_took hProxy bytes).trans ((w.took proxy.fd bytes).touches_settleSend i proxy.fd
    (.resendChains i h result.2.1 outChain) result.1)
  obtain ⟨d, hd, hLinks⟩ := hTouches.exists_links hProxy
  rw [← show d.ev = proxy.ev from congrArg (·.2.1) hLinks]
  have hTook : w.Steady (w.took proxy.fd bytes) := .of_poller rfl
  have hPosted := (w.took proxy.fd bytes).steady_settleSend i (partner i) proxy.fd
    (.resendChains i h result.2.1 outChain) result.1
  exact (hTook.trans hPosted).trans (hSettled.steady_ltIoMod hd rfl _ _)

theorem Wired.steady_httpDataComing {u : ClientWakeUp} (hWired : w.Wired) (hEven : i % 2 = 0)
    (hCall : Worker.HttpDataComing k junk u i w w') : w.Steady w' := by
  cases hCall with
  | ignored => exact .refl w
  | @parsed client rv s res h' _ hConn hStatus hRecv hLine =>
      refine (requestTurn_keeps (I := fun v => (v.Wired ∧ w.Touches v i) ∧ w.Steady v)
        (fun g v v' hKept hSend => ?_) hLine ⟨⟨hWired, Touches.refl w i⟩, .refl w⟩).2
      obtain ⟨c, hc, -⟩ := hKept.1.2.exists_links hConn
      obtain ⟨hNext, hTouches⟩ := hKept.1.1.sendRequest hc hEven hSend
      refine ⟨⟨hNext, hKept.1.2.trans hTouches⟩, hKept.2.trans ?_⟩
      obtain ⟨built, -, hSend⟩ := Option.bind_eq_some_iff.mp hSend
      obtain ⟨vec, -, hSend⟩ := Option.bind_eq_some_iff.mp hSend
      have hHanded : v.Steady (v.handing i (iovBytes g.mem vec.1)) := .of_poller rfl
      exact hHanded.trans ((hKept.1.1.of_wiring (v.wiring_handing i _)).steady_httpSendToUpstream hc hSend)

theorem steady_httpInitConnection (w : Worker) (fd : Int) {fd' : Int} {a : Arrival} (hSocket : a.socket = some fd') :
    w.Steady (w.httpInitConnection fd a).2 := by
  obtain ⟨hPoller, -⟩ := w.poller_httpInitConnection fd hSocket
  refine .trans ?_ (.of_poller hPoller)
  have hClient := w.steady_ltIoAdd fd (rfl : (lvFdrd ||| lvConn) &&& lvLag = 0) (.httpDataComing w.conns.fresh)
    a.refusedClient
  split_ifs
  · exact hClient.trans (steady_ltIoAdd _ _ rfl _ _)
  · exact hClient

/-- A step leaves the sockets their events, and defers nothing. -/
theorem Wired.steady_step (h : w.Wired) (hFits : w.Fits a) (hStep : Step k junk w a w') : w.Steady w' := by
  cases hStep with
  | accept hReports hCall =>
      refine startAccept_keeps hFits hCall (Steady.refl w) fun v a fd fd' hSteady hGranted => ?_
      have hOpened : v.Steady (v.opened fd) := .of_poller rfl
      exact hSteady.trans (hOpened.trans (steady_httpInitConnection _ fd hGranted.socket))
  | request hReports hCall =>
      rcases h.reported hReports with ⟨hNot, -⟩ | ⟨i, c, hc, hFd, rfl, hEven⟩
      · cases hNot
      · exact h.steady_httpDataComing hEven hCall
  | writable hReports =>
      unfold Worker.proxyConnectWritable
      split_ifs
      · exact .of_poller rfl
      · exact .refl w
  | response hReports hCall =>
      cases hCall with
      | call => exact .of_poller rfl
  | resend hReports hCall =>
      -- a posted event is not registered with epoll
      rcases h.reported hReports with ⟨hNot, -⟩ | ⟨i, c, -, -, hServes⟩
      · cases hNot
      · exact absurd hServes id

end Steady

section Loop

variable {timeout : Int} {start : LtTime} {as bs : List WorkerAction} {p q : WorkerPhase} {w₀ w₁ : Worker}

theorem quiet_httpWorkerNew (p : Nat → Nat) (ev : Nat → EventT) (tail : Option Nat) (fds : Nat → Int)
    (handlers : Nat → Handler) (junk : Nat → ConnectionT) (listenFd : Int) (refused : Bool) :
    (httpWorkerNew ⟨Base.ltBaseInit p ev tail, fds, fun _ => none⟩ handlers junk listenFd refused).Quiet := by
  refine (steady_ltIoAdd _ listenFd rfl .startAccept refused).quiet ⟨fun e he => ?_, rfl⟩
  exact absurd he (Nat.not_lt_zero e)

/-- The worker has come from `w₀` by the callbacks `as`, up to the tail of the empty list. -/
structure Came (k : Kernel) (junk : Nat → Nat → Nat → LtChain) (w₀ : Worker) (as : List WorkerAction) (w : Worker) :
    Prop where
  wired : w.Wired
  quiet : w.Quiet
  trail : ∃ tail, Trail (Step k junk) Fits w₀ as (w.withTail tail)

/-- What the phases of the loop have in common: an event of the batch is called at once,
and the list is always empty. -/
def Direct (k : Kernel) (junk : Nat → Nat → Nat → LtChain) (w₀ : Worker) (as : List WorkerAction) :
    WorkerPhase → Prop
  | .waiting w => Came k junk w₀ as w
  | .dispatching _ .first w batch => Came k junk w₀ as w ∧ ∀ y ∈ batch, w.Delivers y
  | .dispatching _ (.walk none) w _ => Came k junk w₀ as w
  | .failed w => Came k junk w₀ as w
  | _ => False

theorem Came.setList (h : Came k junk w₀ as w) : Came k junk w₀ as (w.setList none none) := by
  obtain ⟨tail, hTrail⟩ := h.trail
  have hTail : w.setList none none = w.withTail none := by
    rw [Worker.setList, withTail, ← h.quiet.head]
  rw [hTail]
  exact ⟨wired_withTail h.wired, ⟨h.quiet.direct, h.quiet.head⟩, tail, hTrail⟩

theorem Came.call (h : Came k junk w₀ as w) {y : ReadyEvent} (hDelivers : w.Delivers y) (hFits : w.Fits y.action)
    (hCall : Calls k junk w (w.handlers y.ptr) y.action w') :
    Came k junk w₀ (as ++ [y.action]) w' ∧ w.Steady w' := by
  obtain ⟨x, hx, hData⟩ := hDelivers
  obtain ⟨tail, hTrail⟩ := h.trail
  have hReports : w.Reports y.action.fd (w.handlers y.ptr) := ⟨x, hx, congrArg _ hData⟩
  have hStep : Step k junk w y.action w' := step_iff_calls.mpr ⟨_, hReports, hCall⟩
  have hSteady := h.wired.steady_step hFits hStep
  have hStep' : Step k junk (w.withTail tail) y.action (w'.withTail tail) :=
    step_iff_calls.mpr ⟨_, hReports, calls_withTail hCall⟩
  refine ⟨⟨(h.wired.step hFits hStep).1, hSteady.quiet h.quiet, tail, ?_⟩, hSteady⟩
  exact hTrail.append (.cons (fits_withTail hFits) hStep' (.nil _))

theorem Steady.delivers (h : w.Steady w') {y : ReadyEvent} (hDelivers : w.Delivers y) : w'.Delivers y := by
  obtain ⟨x, hx, hData⟩ := hDelivers
  obtain ⟨x', hx', hData'⟩ := h.data _ x hx
  exact ⟨x', hx', hData'.trans hData⟩

/-- Without a timeout the loop is never late: the comparison is one of `unsigned long long`. -/
theorem not_timeAGtB_noTimeout (x : Int) : ¬ timeAGtB x noTimeout := by
  unfold timeAGtB toSize noTimeout
  omega

/-- A turn of the loop keeps to callbacks that are made at once. As no event lags, the
active list stays empty, and the walk over it has nothing to call. -/
theorem Direct.turn (hDirect : Direct k junk w₀ as p) (h : LoopTurn k junk noTimeout start p bs q) :
    Direct k junk w₀ (as ++ bs) q := by
  cases h with
  | failed => simpa [Direct] using hDirect
  | expired _ hLate => exact absurd hLate (not_timeAGtB_noTimeout _)
  | woken _ _ hDelivers => exact ⟨by simpa [Direct] using hDirect, hDelivers⟩
  | skip =>
      obtain ⟨hCame, hBatch⟩ := hDirect
      exact ⟨by simpa using hCame, fun y hy => hBatch y (List.mem_cons_of_mem _ hy)⟩
  | direct _ _ hFits hCall =>
      obtain ⟨hCame, hBatch⟩ := hDirect
      obtain ⟨hNext, hSteady⟩ := hCame.call (hBatch _ List.mem_cons_self) hFits hCall
      exact ⟨hNext, fun y hy => hSteady.delivers (hBatch y (List.mem_cons_of_mem _ hy))⟩
  | @defer _ w y ys _ hLags =>
      -- epoll holds only events that were handed out, and none of these lags
      obtain ⟨hCame, hBatch⟩ := hDirect
      obtain ⟨x, hx, hData⟩ := hBatch y List.mem_cons_self
      obtain ⟨hArmed, -⟩ := hCame.wired.reports.only _ x hx
      exact absurd hLags (hCame.quiet.direct _ (hData ▸ hArmed.1))
  | @ended _ w =>
      obtain ⟨hCame, -⟩ := hDirect
      rw [hCame.quiet.head, List.append_nil]
      exact hCame.setList
  | link => exact hDirect.elim
  | late => exact hDirect.elim
  | linked => exact hDirect.elim
  | process => exact hDirect.elim
  | moved =>
      rw [List.append_nil]
      exact Came.setList hDirect

/-- In a run of the loop every callback is made at once. -/
theorem LtBaseLoop.direct (h : LtBaseLoop k junk noTimeout start w₀ as p) (hWired : w₀.Wired) (hQuiet : w₀.Quiet) :
    Direct k junk w₀ as p := by
  induction h with
  | begin => exact ⟨hWired, hQuiet, w₀.poller.tail, .nil w₀⟩
  | turn _ hTurn ih => exact ih.turn hTurn

theorem Direct.came (h : Direct k junk w₀ as p) : Came k junk w₀ as p.worker := by
  match p with
  | .waiting _ => exact h
  | .failed _ => exact h
  | .dispatching _ .first _ _ => exact h.1
  | .dispatching _ (.walk none) _ _ => exact h
  | .dispatching _ (.walk (some _)) _ _ => exact h.elim
  | .dispatching _ (.second _) _ _ => exact h.elim
  | .expired _ => exact h.elim

/-- A step is a wake-up of the loop for one socket. The batch has this one entry, and
its callback is the one that epoll holds. -/
theorem LtBaseLoop.step {tail : Option Nat} (h : LtBaseLoop k junk noTimeout start w₀ as (.waiting (w.withTail tail)))
    (hQuiet : w.Quiet) (hWired : w.Wired) (hFits : w.Fits a) (hStep : Step k junk w a w') :
    LtBaseLoop k junk noTimeout start w₀ (as ++ [a]) (.waiting (w'.withTail none)) := by
  obtain ⟨callback, ⟨x, hx, hHandler⟩, hCall⟩ := step_iff_calls.mp hStep
  let y : ReadyEvent := ⟨⟨epollin, x.data⟩, a⟩
  have hReady : y.Ready := (by decide : epollin &&& (epollin ||| epollout) ≠ 0)
  have hLags : ¬ ((w.withTail tail).poller.ev y.ptr).Lags :=
    hQuiet.direct _ (hWired.reports.only _ x hx).1.1
  have hCall' : Calls k junk (w.withTail tail) ((w.withTail tail).handlers y.ptr) y.action (w'.withTail tail) := by
    have hHandlers : (w.withTail tail).handlers y.ptr = callback := hHandler
    rw [hHandlers]
    exact calls_withTail hCall
  have hHead := ((hWired.steady_step hFits hStep).quiet hQuiet).head
  have hTail : ((w'.withTail tail).setList none none).setList none none = w'.withTail none := by
    rw [setList, setList, withTail, withTail, ← hHead]
  have hWoken := h.turn (.woken (x := ⟨.ready [y], start⟩) (by simp) (not_timeAGtB_noTimeout _) fun z hz => by
    obtain rfl := List.mem_singleton.mp hz
    exact ⟨x, hx, rfl⟩)
  have hCalled := hWoken.turn (.direct hReady hLags (fits_withTail hFits) hCall')
  have hEnded := hCalled.turn .ended
  rw [show (w'.withTail tail).poller.head = none from hHead] at hEnded
  have hMoved := hEnded.turn .moved
  rw [hTail] at hMoved
  simpa using hMoved

theorem LtBaseLoop.follow (hTrail : Trail (Step k junk) Fits w as w') (hWired : w.Wired) (hQuiet : w.Quiet)
    {tail : Option Nat} (h : LtBaseLoop k junk noTimeout start w₀ bs (.waiting (w.withTail tail))) :
    ∃ tail', LtBaseLoop k junk noTimeout start w₀ (bs ++ as) (.waiting (w'.withTail tail')) := by
  induction hTrail generalizing bs tail with
  | nil => exact ⟨tail, by simpa using h⟩
  | @cons w w₁ w' a as hFits hStep _ ih =>
      have hNext := h.step hQuiet hWired hFits hStep
      obtain ⟨tail', hRest⟩ := ih (hWired.step hFits hStep).1 ((hWired.steady_step hFits hStep).quiet hQuiet) hNext
      exact ⟨tail', by simpa using hRest⟩

/-- The process of main.c comes by `lt_base_loop` exactly to the workers to which
callbacks of one socket after the other lead, in the same order, and it never leaves the
loop for being late. -/
theorem ltBaseLoop_iff_trail (p : Nat → Nat) (ev : Nat → EventT) (tail : Option Nat) (fds : Nat → Int)
    (handlers : Nat → Handler) (blocks : Nat → ConnectionT) (listenFd : Int) (refused : Bool) (start : LtTime)
    (as : List WorkerAction) (w : Worker) :
    let child := httpWorkerNew ⟨Base.ltBaseInit p ev tail, fds, fun _ => none⟩ handlers blocks listenFd refused
    ((∃ phase tail', LtBaseLoop k junk noTimeout start child as phase ∧ phase.worker = w.withTail tail') ↔
        ∃ tail', Trail (Step k junk) Fits child as (w.withTail tail')) ∧
      ∀ w', ¬ LtBaseLoop k junk noTimeout start child as (.expired w') := by
  intro child
  have hWired : child.Wired := wired_httpWorkerNew p ev tail fds handlers blocks listenFd refused
  have hQuiet : child.Quiet := quiet_httpWorkerNew p ev tail fds handlers blocks listenFd refused
  refine ⟨⟨?_, ?_⟩, fun w' hLoop => hLoop.direct hWired hQuiet⟩
  · rintro ⟨phase, tail, hLoop, hWorker⟩
    obtain ⟨tail', hTrail⟩ := (hLoop.direct hWired hQuiet).came.trail
    rw [hWorker] at hTrail
    exact ⟨tail', hTrail⟩
  · rintro ⟨tail, hTrail⟩
    have hBegin : LtBaseLoop k junk noTimeout start child [] (.waiting (child.withTail child.poller.tail)) := .begin
    obtain ⟨tail', hLoop⟩ := LtBaseLoop.follow hTrail hWired hQuiet hBegin
    exact ⟨_, tail', hLoop, rfl⟩

end Loop

end Worker

end Leactor
