import Leactor.Http.Worker

/-! The pointers of the worker: which callback serves which socket, and to which socket
it passes on what it reads. -/
namespace Leactor

open Loop Run

/-- The fields of a connection that only `http_init_connection` and `proxy_connect` write. -/
def ConnectionT.links (c : ConnectionT) : Int × Option Nat × Option Nat := (c.fd, c.ev, c.pair)

/-- Connections are made in twos: a client's and its pair. -/
def partner (i : Nat) : Nat := if i % 2 = 0 then i + 1 else i - 1

theorem partner_partner (i : Nat) : partner (partner i) = i := by
  unfold partner
  split_ifs <;> omega

theorem partner_ne (i : Nat) : partner i ≠ i := by
  unfold partner
  split_ifs <;> omega

theorem partner_odd {i : Nat} (hEven : i % 2 = 0) : partner i % 2 = 1 := by
  rw [partner, if_pos hEven]
  omega

theorem partner_lt {i n : Nat} (hi : i < n) (hEven : n % 2 = 0) : partner i < n := by
  unfold partner
  split_ifs <;> omega

/-- The callback is one of the connection `i`: the client's, or those of its pair. -/
def Handler.Serves (i : Nat) : Handler → Prop
  | .httpDataComing conn => conn = i ∧ i % 2 = 0
  | .proxyConnectWritable conn => conn = i ∧ i % 2 = 1
  | .proxyDataComing conn => conn = i ∧ i % 2 = 1
  | _ => False

/-- The callback of `lt_new_post_callback`. -/
def Handler.Posted : Handler → Prop
  | .resendChains _ _ _ _ => True
  | _ => False

namespace Worker

def armed (w : Worker) : Set Nat := {e | e < w.poller.fresh ∧ ¬ (w.handlers e).Posted}

theorem mem_armed {w : Worker} {e : Nat} : e ∈ w.armed ↔ e < w.poller.fresh ∧ ¬ (w.handlers e).Posted := Iff.rfl

/-- Every connection points at its pair and at the event of its own socket, and every
event leads to the connection on whose socket it is registered. -/
structure Wired (w : Worker) : Prop where
  reports : PollRun.Reports ⟨w.poller, w.armed⟩
  owner : ∀ e ∈ w.armed, w.handlers e = .startAccept ∧ w.poller.fds e = w.listenFd ∨
    ∃ i c, w.conns.get? i = some c ∧ c.ev = some e
  event : ∀ i c e, w.conns.get? i = some c → c.ev = some e →
    e ∈ w.armed ∧ w.poller.fds e = c.fd ∧ (w.handlers e).Serves i
  client : ∀ i c, i % 2 = 0 → w.conns.get? i = some c → c.ev ≠ none
  pair : ∀ i c, w.conns.get? i = some c → c.pair = some (partner i)
  socket : ∀ i c, w.conns.get? i = some c → c.fd ∈ w.sockets ∧ c.fd ≠ w.listenFd
  apart : ∀ i j c d, w.conns.get? i = some c → w.conns.get? j = some d → c.fd = d.fd → i = j
  even : w.conns.fresh % 2 = 0
  listen : w.listenFd ∈ w.sockets

def wiring (w : Worker) : Poller × (Nat → Handler) × List (Int × Option Nat × Option Nat) × Int × List Int :=
  (w.poller, w.handlers, w.conns.cells.map ConnectionT.links, w.listenFd, w.sockets)

theorem wiring_modify {w : Worker} {conn : Nat} {g : ConnectionT → ConnectionT} (hg : ∀ c, (g c).links = c.links) :
    (w.modify conn g).wiring = w.wiring := by
  have hCells : (w.conns.cells.modify conn g).map ConnectionT.links = w.conns.cells.map ConnectionT.links := by
    refine List.ext_getElem? fun i => ?_
    rw [List.getElem?_map, List.getElem?_map, List.getElem?_modify]
    cases w.conns.cells[i]? with
    | none => rfl
    | some c =>
        by_cases hi : conn = i
        · simp [hi, hg]
        · simp [hi]
  rw [wiring, wiring, modify, Arena.modify, hCells]

@[simp] theorem wiring_setStatus (w : Worker) (conn : Nat) (status : Int) :
    (w.setStatus conn status).wiring = w.wiring :=
  wiring_modify fun _ => rfl

@[simp] theorem wiring_took (w : Worker) (fd : Int) (bytes : List UInt8) : (w.took fd bytes).wiring = w.wiring := rfl

@[simp] theorem wiring_handing (w : Worker) (conn : Nat) (bytes : List UInt8) :
    (w.handing conn bytes).wiring = w.wiring := rfl

/-- Connections with the same links are at the same places. -/
theorem exists_of_wiring {w w' : Worker} (h : w'.wiring = w.wiring) {i : Nat} {c : ConnectionT}
    (hc : w'.conns.get? i = some c) : ∃ d, w.conns.get? i = some d ∧ d.links = c.links := by
  have hCells := congrArg (·[i]?) (congrArg (·.2.2.1) h)
  simp only [wiring, List.getElem?_map] at hCells
  rw [show w'.conns.cells[i]? = some c from hc, Option.map_some] at hCells
  exact Option.map_eq_some_iff.mp hCells.symm

/-- What only writes statuses and bytes keeps the wiring, as neither is part of it. -/
theorem Wired.of_wiring {w w' : Worker} (hWired : w.Wired) (h : w'.wiring = w.wiring) : w'.Wired := by
  have hPoller : w'.poller = w.poller := congrArg (·.1) h
  have hHandlers : w'.handlers = w.handlers := congrArg (·.2.1) h
  have hListen : w'.listenFd = w.listenFd := congrArg (·.2.2.2.1) h
  have hSockets : w'.sockets = w.sockets := congrArg (·.2.2.2.2) h
  have hArmed : w'.armed = w.armed := by rw [armed, armed, hPoller, hHandlers]
  have hFresh : w'.conns.fresh = w.conns.fresh := by
    have hLength := congrArg List.length (congrArg (·.2.2.1) h)
    simpa only [wiring, List.length_map, Arena.fresh] using hLength
  refine ⟨by rw [hPoller, hArmed]; exact hWired.reports, fun e he => ?_, fun i c e hc he => ?_,
    fun i c hEven hc => ?_, fun i c hc => ?_, fun i c hc => ?_, fun i j c d hc hd hFd => ?_,
    by rw [hFresh]; exact hWired.even,
    by rw [hListen, hSockets]; exact hWired.listen⟩
  · rw [hArmed] at he
    rw [hHandlers, hPoller, hListen]
    refine (hWired.owner e he).imp_right ?_
    rintro ⟨i, d, hd, hEv⟩
    obtain ⟨c, hc, hLinks⟩ := exists_of_wiring h.symm hd
    exact ⟨i, c, hc, (congrArg (·.2.1) hLinks).trans hEv⟩
  · obtain ⟨d, hd, hLinks⟩ := exists_of_wiring h hc
    rw [hArmed, hHandlers, hPoller, ← show d.fd = c.fd from congrArg (·.1) hLinks]
    exact hWired.event i d e hd ((congrArg (·.2.1) hLinks).trans he)
  · obtain ⟨d, hd, hLinks⟩ := exists_of_wiring h hc
    rw [← show d.ev = c.ev from congrArg (·.2.1) hLinks]
    exact hWired.client i d hEven hd
  · obtain ⟨d, hd, hLinks⟩ := exists_of_wiring h hc
    exact (congrArg (·.2.2) hLinks).symm.trans (hWired.pair i d hd)
  · obtain ⟨d, hd, hLinks⟩ := exists_of_wiring h hc
    rw [hSockets, hListen, ← show d.fd = c.fd from congrArg (·.1) hLinks]
    exact hWired.socket i d hd
  · obtain ⟨c', hc', hLinks⟩ := exists_of_wiring h hc
    obtain ⟨d', hd', hLinks'⟩ := exists_of_wiring h hd
    refine hWired.apart i j c' d' hc' hd' ?_
    exact (congrArg (·.1) hLinks).trans (hFd.trans (congrArg (·.1) hLinks').symm)

section Events

variable {w : Worker}

/-- Epoll reports the listening socket for `start_accept`, and a connection's socket for
the callbacks of this connection. -/
theorem Wired.reported (h : w.Wired) {fd : Int} {callback : Handler} (hReports : w.Reports fd callback) :
    callback = .startAccept ∧ fd = w.listenFd ∨ ∃ i c, w.conns.get? i = some c ∧ c.fd = fd ∧ callback.Serves i := by
  obtain ⟨x, hx, rfl⟩ := hReports
  obtain ⟨hArmed, rfl⟩ := h.reports.only fd x hx
  rcases h.owner _ hArmed with hListen | ⟨i, c, hc, hEv⟩
  · exact Or.inl hListen
  · obtain ⟨-, hFd, hServes⟩ := h.event i c _ hc hEv
    exact Or.inr ⟨i, c, hc, hFd.symm, hServes⟩

/-- What epoll holds for a connection's socket is the connection's event. -/
theorem Wired.ev_of_table (h : w.Wired) {i : Nat} {c : ConnectionT} (hc : w.conns.get? i = some c) {x : Interest}
    (hx : w.poller.table c.fd = some x) : c.ev = some x.data := by
  obtain ⟨hArmed, hFd⟩ := h.reports.only c.fd x hx
  rcases h.owner _ hArmed with ⟨-, hListen⟩ | ⟨j, d, hd, hEv⟩
  · exact absurd (hFd.symm.trans hListen) (h.socket i c hc).2
  · have hSame : d.fd = c.fd := (h.event j d _ hd hEv).2.1.symm.trans hFd
    obtain rfl := h.apart j i d c hd hc hSame
    rw [hc, Option.some.injEq] at hd
    rw [hd, hEv]

theorem armed_ltIoMod {e : Nat} {callback : Handler} (he : e ∈ w.armed) (hCallback : ¬ callback.Posted) (flag : Nat)
    (refused : Bool) : (w.ltIoMod (some e) flag callback refused).armed = insert e w.armed := by
  have hFresh := w.poller.fresh_call (.mod e flag noTimeout ⟨0, 0⟩ true refused)
  ext x
  simp only [mem_armed, ltIoMod, Set.mem_insert_iff]
  rw [show (w.poller.ltIoMod e flag noTimeout ⟨0, 0⟩ true refused).fresh = w.poller.fresh from hFresh]
  by_cases hx : x = e
  · subst hx
    simp only [Function.update_self, hCallback, not_false_eq_true, and_true, true_or, iff_true]
    exact he.1
  · simp only [Function.update_of_ne hx, hx, false_or]

theorem armed_ltIoAdd {callback : Handler} (hCallback : ¬ callback.Posted) (fd : Int) (flag : Nat) (refused : Bool) :
    (w.ltIoAdd fd flag callback refused).2.armed = insert w.poller.fresh w.armed := by
  have hFresh := w.poller.fresh_call (.add fd flag noTimeout ⟨0, 0⟩ true refused)
  ext x
  simp only [mem_armed, ltIoAdd, Set.mem_insert_iff]
  rw [show (w.poller.ltIoAdd fd flag noTimeout ⟨0, 0⟩ true refused).2.fresh = w.poller.fresh + 1 from hFresh]
  change x < w.poller.fresh + 1 ∧ ¬ (Function.update w.handlers w.poller.fresh callback x).Posted ↔ _
  by_cases hx : x = w.poller.fresh
  · subst hx
    simp only [Function.update_self, hCallback, not_false_eq_true, and_true, true_or, iff_true]
    exact Nat.lt_succ_self _
  · simp only [Function.update_of_ne hx, hx, false_or]
    exact and_congr_left' (by omega)

theorem armed_ltNewPostCallback {callback : Handler} (hCallback : callback.Posted) (fd : Int) :
    (w.ltNewPostCallback callback fd).armed = w.armed := by
  have hFresh := w.poller.fresh_call (.post fd)
  ext x
  simp only [mem_armed, ltNewPostCallback]
  rw [show (w.poller.ltNewPostCallback fd).2.fresh = w.poller.fresh + 1 from hFresh]
  change x < w.poller.fresh + 1 ∧ ¬ (Function.update w.handlers w.poller.fresh callback x).Posted ↔ _
  by_cases hx : x = w.poller.fresh
  · subst hx
    simp only [Function.update_self, hCallback, not_true_eq_false, and_false, lt_irrefl, false_and]
  · simp only [Function.update_of_ne hx]
    exact and_congr_left' (by omega)

/-- An event of a connection gets another callback of this connection. The events of all
others keep theirs. -/
theorem Wired.ltIoMod (h : w.Wired) {i e : Nat} {c : ConnectionT} (hc : w.conns.get? i = some c) (he : c.ev = some e)
    (callback : Handler) (hServes : callback.Serves i) (flag : Nat) (refused : Bool) :
    (w.ltIoMod (some e) flag callback refused).Wired := by
  have hNot : ¬ callback.Posted := fun hPosted => by cases callback <;> first | exact hPosted | exact hServes
  obtain ⟨hArmed, hFd, -⟩ := h.event i c e hc he
  have hSet := armed_ltIoMod hArmed hNot flag refused
  have hFds := w.poller.fds_call (.mod e flag noTimeout ⟨0, 0⟩ true refused)
  have hStep := h.reports.step (.mod e flag noTimeout ⟨0, 0⟩ true refused) hArmed.1
  rw [Set.insert_eq_of_mem hArmed] at hSet
  refine ⟨?_, fun x hx => ?_, fun j d x hd hx => ?_, h.client, h.pair, h.socket, h.apart, h.even,
    h.listen⟩
  · rw [PollRun.step, Set.insert_eq_of_mem hArmed] at hStep
    rw [hSet]
    exact hStep
  · rw [hSet] at hx
    by_cases hHere : x = e
    · exact Or.inr ⟨i, c, hc, he.trans (congrArg some hHere.symm)⟩
    · have hOld := h.owner x hx
      simp only [Worker.ltIoMod, Function.update_of_ne hHere]
      exact hOld
  · obtain ⟨hx', hFd', hServes'⟩ := h.event j d x hd hx
    refine ⟨by rw [hSet]; exact hx', (hFds x).trans hFd', ?_⟩
    simp only [Worker.ltIoMod]
    by_cases hHere : x = e
    · subst hHere
      rw [Function.update_self]
      obtain rfl := h.apart i j c d hc hd (hFd.symm.trans hFd')
      exact hServes
    · rwa [Function.update_of_ne hHere]

/-- A posted event is nothing to epoll and to the connections. -/
theorem Wired.ltNewPostCallback (h : w.Wired) {callback : Handler} (hCallback : callback.Posted) (fd : Int) :
    (w.ltNewPostCallback callback fd).Wired := by
  have hSet := armed_ltNewPostCallback (w := w) hCallback fd
  have hOld : ∀ e ∈ w.armed, e ≠ w.poller.fresh := fun e he => he.1.ne
  have hFds : ∀ e ∈ w.armed, (w.ltNewPostCallback callback fd).poller.fds e = w.poller.fds e := fun e he =>
    (w.poller.fds_call (.post fd) e).trans (if_neg (hOld e he))
  have hHandlers : ∀ e ∈ w.armed, (w.ltNewPostCallback callback fd).handlers e = w.handlers e := fun e he =>
    Function.update_of_ne (hOld e he) _ _
  refine ⟨?_, fun e he => ?_, fun i c e hc he => ?_, h.client, h.pair, h.socket, h.apart, h.even,
    h.listen⟩
  · rw [hSet]
    exact h.reports.step (.post fd) trivial
  · rw [hSet] at he
    rw [hHandlers e he, hFds e he]
    exact h.owner e he
  · obtain ⟨hArmed, hFd, hServes⟩ := h.event i c e hc he
    rw [hSet, hHandlers e hArmed, hFds e hArmed]
    exact ⟨hArmed, hFd, hServes⟩

/-- An event `e` for the socket `fd` was handed to epoll. -/
structure AddsEvent (w w' : Worker) (e : Nat) (fd : Int) (callback : Handler) : Prop where
  armed : w'.armed = insert e w.armed
  fresh : w'.poller.fresh = e + 1
  old : ∀ x ∈ w.armed, w'.poller.fds x = w.poller.fds x ∧ w'.handlers x = w.handlers x
  fds : w'.poller.fds e = fd
  handler : w'.handlers e = callback

theorem addsEvent_ltIoAdd (callback : Handler) (hCallback : ¬ callback.Posted) (fd : Int) (flag : Nat)
    (refused : Bool) : w.AddsEvent (w.ltIoAdd fd flag callback refused).2 w.poller.fresh fd callback := by
  have hFds := w.poller.fds_call (.add fd flag noTimeout ⟨0, 0⟩ true refused)
  refine ⟨armed_ltIoAdd hCallback fd flag refused, w.poller.fresh_call (.add fd flag noTimeout ⟨0, 0⟩ true refused),
    fun x hx => ⟨(hFds x).trans (if_neg hx.1.ne), Function.update_of_ne hx.1.ne _ _⟩, (hFds _).trans (if_pos rfl),
    Function.update_self _ _ _⟩

theorem reports_ltIoAdd (callback : Handler) (hCallback : ¬ callback.Posted) (fd : Int) (flag : Nat)
    (refused : Bool) (h : PollRun.Reports ⟨w.poller, w.armed⟩) :
    PollRun.Reports
      ⟨(w.ltIoAdd fd flag callback refused).2.poller, (w.ltIoAdd fd flag callback refused).2.armed⟩ := by
  rw [armed_ltIoAdd hCallback]
  exact h.step (.add fd flag noTimeout ⟨0, 0⟩ true refused) trivial

/-- What `proxy_connect` leaves in the connections: a new one for the upstream, and a
link to it in the client's. Where `connect` comes back at once, no event is made, and
the field is what the block held. -/
theorem conns_proxyConnect {conn : Nat} (hConn : conn < w.conns.fresh) {fd : Int} {a : Arrival}
    (hSocket : a.socket = some fd) :
    (w.proxyConnect conn a).2.conns.fresh = w.conns.fresh + 1 ∧
      ∃ proxy, (∀ i, (w.proxyConnect conn a).2.conns.get? i =
          if i = w.conns.fresh then some proxy
          else if i = conn then (w.conns.get? i).map fun c => { c with pair := some w.conns.fresh }
          else w.conns.get? i) ∧
        proxy.fd = fd ∧ proxy.pair = some conn ∧
        proxy.ev = (if a.connect = .einprogress then some w.poller.fresh else (w.conns.junk w.conns.fresh).ev) ∧
        proxy.status = if a.connect = .connected then lProxyConnected else lProxyConnecting := by
  have hNe : conn ≠ w.conns.fresh := hConn.ne
  have hEvent : ∀ flag refused, (w.poller.ltIoAdd fd flag noTimeout ⟨0, 0⟩ true refused).1 = w.poller.fresh :=
    fun _ _ => rfl
  refine ⟨?_, { w.conns.junk w.conns.fresh with
      fd := fd
      pair := some conn
      status := if a.connect = .connected then lProxyConnected else lProxyConnecting
      ev := if a.connect = .einprogress then some w.poller.fresh else (w.conns.junk w.conns.fresh).ev },
    fun i => ?_, rfl, rfl, rfl, rfl⟩
  · cases hConnect : a.connect <;>
      simp [proxyConnect, hSocket, hConnect, modify, opened, setStatus, Worker.ltIoAdd]
  · by_cases hPair : w.conns.fresh = i
    · subst hPair
      cases hConnect : a.connect <;>
        simp [proxyConnect, hSocket, hConnect, modify, opened, setStatus, Worker.ltIoAdd, Arena.get?_modify,
          Arena.get?_alloc_eq, hNe, hEvent]
    · by_cases hHere : conn = i
      · cases hConnect : a.connect <;>
          simp [proxyConnect, hSocket, hConnect, modify, opened, setStatus, Worker.ltIoAdd, Arena.get?_modify,
            Arena.get?_alloc_eq, hPair, hHere, Ne.symm hPair]
      · cases hConnect : a.connect <;>
          simp [proxyConnect, hSocket, hConnect, modify, opened, setStatus, Worker.ltIoAdd, Arena.get?_modify,
            Arena.get?_alloc_eq, hPair, hHere, Ne.symm hPair, Ne.symm hHere]

/-- What `http_init_connection` leaves in the two connections. All others are as they
were, whatever `connect` does. -/
theorem conns_httpInitConnection (fd : Int) {fd' : Int} {a : Arrival} (hSocket : a.socket = some fd') :
    (w.httpInitConnection fd a).2.conns.fresh = w.conns.fresh + 2 ∧
      ∃ client proxy, (∀ i, (w.httpInitConnection fd a).2.conns.get? i =
          if i = w.conns.fresh then some client
          else if i = w.conns.fresh + 1 then some proxy
          else w.conns.get? i) ∧
        client.fd = fd ∧ client.pair = some (w.conns.fresh + 1) ∧ client.ev = some w.poller.fresh ∧
        client.status = lConnectingAccepted ∧ proxy.fd = fd' ∧ proxy.pair = some w.conns.fresh ∧
        proxy.ev = (if a.connect = .einprogress then some (w.poller.fresh + 1)
          else (w.conns.junk (w.conns.fresh + 1)).ev) ∧
        proxy.status = if a.connect = .connected then lProxyConnected else lProxyConnecting := by
  -- the worker in which `proxy_connect` is called
  let w₁ : Worker := { w with conns := w.conns.alloc.2.modify w.conns.fresh fun c =>
    { c with fd := fd, status := lConnectingAccepted } }
  let w₂ := (w₁.ltIoAdd fd (lvFdrd ||| lvConn) (.httpDataComing w.conns.fresh) a.refusedClient).2.modify w.conns.fresh
    fun c => { c with ev := some w.poller.fresh }
  have hCall : (w.httpInitConnection fd a).2 = (w₂.proxyConnect w.conns.fresh a).2 := rfl
  have hFresh : w₂.conns.fresh = w.conns.fresh + 1 := by
    simp [w₂, w₁, modify, Worker.ltIoAdd]
  have hGet : ∀ i, w₂.conns.get? i = if i = w.conns.fresh then some
      { w.conns.junk w.conns.fresh with fd := fd, status := lConnectingAccepted, ev := some w.poller.fresh }
      else w.conns.get? i := by
    intro i
    by_cases hHere : w.conns.fresh = i
    · subst hHere
      simp [w₂, w₁, modify, Worker.ltIoAdd, Arena.get?_modify, Arena.get?_alloc_eq]
    · simp [w₂, w₁, modify, Worker.ltIoAdd, Arena.get?_modify, Arena.get?_alloc_eq, hHere, Ne.symm hHere]
  have hNext : w₂.poller.fresh = w.poller.fresh + 1 :=
    w.poller.fresh_call (.add fd (lvFdrd ||| lvConn) noTimeout ⟨0, 0⟩ true a.refusedClient)
  obtain ⟨hEnd, proxy, hConns, hFd, hPair, hEv, hStatus⟩ := w₂.conns_proxyConnect (by omega : w.conns.fresh < _) hSocket
  rw [hFresh] at hConns hEv hEnd
  refine ⟨by rw [hCall, hEnd], { w.conns.junk w.conns.fresh with
      fd := fd, status := lConnectingAccepted, ev := some w.poller.fresh, pair := some (w.conns.fresh + 1) },
    proxy, fun i => ?_, rfl, rfl, rfl, rfl, hFd, hPair, by rw [hEv, hNext]; rfl, hStatus⟩
  rw [hCall, hConns, hGet]
  by_cases hHere : i = w.conns.fresh
  · simp [hHere]
  · simp [hHere]

structure Free (w : Worker) (fd : Int) : Prop where
  opened : fd ∈ w.sockets
  other : fd ≠ w.listenFd
  unused : ∀ i c, w.conns.get? i = some c → c.fd ≠ fd

/-- A client's connection and its pair that were added to a wired worker, with an event
each, where the pair has one. -/
theorem Wired.join (h : w.Wired) {w' : Worker} {client proxy : ConnectionT}
    (hReports : PollRun.Reports ⟨w'.poller, w'.armed⟩)
    (hOld : ∀ e ∈ w.armed, e ∈ w'.armed ∧ w'.poller.fds e = w.poller.fds e ∧ w'.handlers e = w.handlers e)
    (hNew : ∀ e ∈ w'.armed, e ∈ w.armed ∨ client.ev = some e ∨ proxy.ev = some e)
    (hClient : ∀ e, client.ev = some e →
      e ∈ w'.armed ∧ w'.poller.fds e = client.fd ∧ (w'.handlers e).Serves w.conns.fresh)
    (hProxy : ∀ e, proxy.ev = some e →
      e ∈ w'.armed ∧ w'.poller.fds e = proxy.fd ∧ (w'.handlers e).Serves (w.conns.fresh + 1))
    (hFresh : w'.conns.fresh = w.conns.fresh + 2)
    (hConns : ∀ i, w'.conns.get? i = if i = w.conns.fresh then some client
      else if i = w.conns.fresh + 1 then some proxy else w.conns.get? i)
    (hEv : client.ev ≠ none) (hPairs : client.pair = some (w.conns.fresh + 1) ∧ proxy.pair = some w.conns.fresh)
    (hListen : w'.listenFd = w.listenFd) (hSockets : w'.sockets = w.sockets ++ [proxy.fd])
    (hFree : w.Free client.fd) (hFd' : proxy.fd ∉ w.sockets) : w'.Wired := by
  have hEven := h.even
  have hCases : ∀ i c, w'.conns.get? i = some c → i = w.conns.fresh ∧ c = client ∨
      i = w.conns.fresh + 1 ∧ c = proxy ∨ w.conns.get? i = some c := by
    intro i c hc
    rw [hConns] at hc
    split_ifs at hc with hi hi'
    · exact Or.inl ⟨hi, (Option.some.inj hc).symm⟩
    · exact Or.inr (Or.inl ⟨hi', (Option.some.inj hc).symm⟩)
    · exact Or.inr (Or.inr hc)
  have hKept : ∀ i c, w.conns.get? i = some c → w'.conns.get? i = some c := by
    intro i c hc
    have hi := Arena.lt_fresh hc
    rw [hConns, if_neg (by omega), if_neg (by omega), hc]
  have hHereClient : w'.conns.get? w.conns.fresh = some client := by rw [hConns, if_pos rfl]
  have hHereProxy : w'.conns.get? (w.conns.fresh + 1) = some proxy := by rw [hConns, if_neg (by omega), if_pos rfl]
  have hFar : ∀ i c, w.conns.get? i = some c → c.fd ≠ proxy.fd := fun i c hc hEq =>
    hFd' (hEq ▸ (h.socket i c hc).1)
  have hNe : client.fd ≠ proxy.fd := fun hEq => hFd' (hEq ▸ hFree.opened)
  refine ⟨hReports, fun e he => ?_, fun i c e hc he => ?_, fun i c hi hc => ?_, fun i c hc => ?_, fun i c hc => ?_,
    fun i j c d hc hd hFd => ?_, by omega, by rw [hListen, hSockets]; simp [h.listen]⟩
  · rcases hNew e he with hArmed | hEv | hEv
    · obtain ⟨-, hFd, hHandler⟩ := hOld e hArmed
      rw [hHandler, hFd, hListen]
      exact (h.owner e hArmed).imp_right fun ⟨i, c, hc, hEv⟩ => ⟨i, c, hKept i c hc, hEv⟩
    · exact Or.inr ⟨_, client, hHereClient, hEv⟩
    · exact Or.inr ⟨_, proxy, hHereProxy, hEv⟩
  · rcases hCases i c hc with ⟨rfl, rfl⟩ | ⟨rfl, rfl⟩ | hc
    · exact hClient e he
    · exact hProxy e he
    · obtain ⟨hArmed, hFd, hServes⟩ := h.event i c e hc he
      obtain ⟨hArmed', hFd', hHandler⟩ := hOld e hArmed
      exact ⟨hArmed', hFd'.trans hFd, hHandler ▸ hServes⟩
  · rcases hCases i c hc with ⟨-, rfl⟩ | ⟨rfl, -⟩ | hc
    · exact hEv
    · omega
    · exact h.client i c hi hc
  · rcases hCases i c hc with ⟨rfl, rfl⟩ | ⟨rfl, rfl⟩ | hc
    · rw [hPairs.1, partner, if_pos hEven]
    · rw [hPairs.2, partner, if_neg (by omega), Nat.add_sub_cancel]
    · exact h.pair i c hc
  · rw [hSockets, hListen]
    rcases hCases i c hc with ⟨rfl, rfl⟩ | ⟨rfl, rfl⟩ | hc
    · exact ⟨by simp [hFree.opened], hFree.other⟩
    · exact ⟨by simp, fun hEq => hFd' (hEq ▸ h.listen)⟩
    · exact ⟨by simp [(h.socket i c hc).1], (h.socket i c hc).2⟩
  · rcases hCases i c hc with ⟨rfl, rfl⟩ | ⟨rfl, rfl⟩ | hc <;>
      rcases hCases j d hd with ⟨rfl, rfl⟩ | ⟨rfl, rfl⟩ | hd
    · rfl
    · exact absurd hFd hNe
    · exact absurd hFd.symm (hFree.unused j d hd)
    · exact absurd hFd.symm hNe
    · rfl
    · exact absurd hFd.symm (hFar j d hd)
    · exact absurd hFd (hFree.unused i c hc)
    · exact absurd hFd (hFar i c hc)
    · exact h.apart i j c d hc hd hFd

/-- What `http_init_connection` does to the base: two calls of `lt_io_add`, or one. -/
theorem poller_httpInitConnection (fd : Int) {fd' : Int} {a : Arrival} (hSocket : a.socket = some fd') :
    let w₁ := (w.ltIoAdd fd (lvFdrd ||| lvConn) (.httpDataComing w.conns.fresh) a.refusedClient).2
    let w₂ := if a.connect = .einprogress then (w₁.ltIoAdd fd' (lvFdwr ||| lvConn ||| lvOneshot)
      (.proxyConnectWritable (w.conns.fresh + 1)) a.refusedPair).2 else w₁
    (w.httpInitConnection fd a).2.poller = w₂.poller ∧ (w.httpInitConnection fd a).2.handlers = w₂.handlers ∧
      (w.httpInitConnection fd a).2.listenFd = w.listenFd ∧
      (w.httpInitConnection fd a).2.sockets = w.sockets ++ [fd'] := by
  cases hConnect : a.connect <;>
    simp [httpInitConnection, proxyConnect, hSocket, hConnect, modify, opened, setStatus, Worker.ltIoAdd]

theorem AddsEvent.mem {w' : Worker} {e : Nat} {fd : Int} {callback : Handler} (h : w.AddsEvent w' e fd callback) :
    e ∈ w'.armed := by
  rw [h.armed]
  exact Set.mem_insert e w.armed

theorem AddsEvent.kept {w' : Worker} {e : Nat} {fd : Int} {callback : Handler} (h : w.AddsEvent w' e fd callback) :
    ∀ x ∈ w.armed, x ∈ w'.armed ∧ w'.poller.fds x = w.poller.fds x ∧ w'.handlers x = w.handlers x := by
  intro x hx
  rw [h.armed]
  exact ⟨Set.mem_insert_of_mem e hx, h.old x hx⟩

/-- A client whose upstream is under way, or whose pair has no event, joins the worker. -/
theorem Wired.httpInitConnection (h : w.Wired) {fd fd' : Int} {a : Arrival} (hFree : w.Free fd)
    (hSocket : a.socket = some fd') (hFd' : fd' ∉ w.sockets)
    (hConnect : a.connect = .einprogress ∨ (w.conns.junk (w.conns.fresh + 1)).ev = none) :
    (w.httpInitConnection fd a).2.Wired := by
  obtain ⟨hFresh, client, proxy, hConns, rfl, hPair, hEv, -, rfl, hPair', hEv', -⟩ :=
    w.conns_httpInitConnection fd hSocket
  obtain ⟨hPoller, hHandlers, hListen, hSockets⟩ := w.poller_httpInitConnection client.fd hSocket
  generalize (w.httpInitConnection client.fd a).2 = w' at *
  have hEven := h.even
  have hSome : client.ev ≠ none := hEv.trans_ne (Option.some_ne_none _)
  have hAdds := w.addsEvent_ltIoAdd (.httpDataComing w.conns.fresh) id client.fd
    (lvFdrd ||| lvConn) a.refusedClient
  have hReports := w.reports_ltIoAdd (.httpDataComing w.conns.fresh) id client.fd
    (lvFdrd ||| lvConn) a.refusedClient h.reports
  generalize (w.ltIoAdd client.fd (lvFdrd ||| lvConn) (.httpDataComing w.conns.fresh) a.refusedClient).2 = w₁ at *
  by_cases hUnderWay : a.connect = .einprogress
  · simp only [hUnderWay, if_true] at hPoller hHandlers hEv'
    have hAdds' := w₁.addsEvent_ltIoAdd (.proxyConnectWritable (w.conns.fresh + 1)) id proxy.fd
      (lvFdwr ||| lvConn ||| lvOneshot) a.refusedPair
    have hReports' := w₁.reports_ltIoAdd (.proxyConnectWritable (w.conns.fresh + 1)) id proxy.fd
      (lvFdwr ||| lvConn ||| lvOneshot) a.refusedPair hReports
    generalize (w₁.ltIoAdd proxy.fd (lvFdwr ||| lvConn ||| lvOneshot) (.proxyConnectWritable (w.conns.fresh + 1))
      a.refusedPair).2 = w₂ at *
    rw [hAdds.fresh] at hAdds'
    have hArmed : w'.armed = w₂.armed := by rw [armed, armed, hPoller, hHandlers]
    refine h.join (by rw [hPoller, hArmed]; exact hReports') (fun e he => ?_) (fun e he => ?_) (fun e he => ?_)
      (fun e he => ?_) hFresh hConns hSome ⟨hPair, hPair'⟩ hListen hSockets hFree hFd'
    · obtain ⟨hMem, hFds, hHandler⟩ := hAdds.kept e he
      obtain ⟨hMem', hFds', hHandler'⟩ := hAdds'.kept e hMem
      rw [hArmed, hPoller, hHandlers]
      exact ⟨hMem', hFds'.trans hFds, hHandler'.trans hHandler⟩
    · rw [hArmed, hAdds'.armed, hAdds.armed] at he
      rcases he with rfl | rfl | he
      · exact Or.inr (Or.inr hEv')
      · exact Or.inr (Or.inl hEv)
      · exact Or.inl he
    · obtain rfl : w.poller.fresh = e := Option.some.inj (hEv.symm.trans he)
      obtain ⟨hMem, hFds, hHandler⟩ := hAdds'.kept _ hAdds.mem
      rw [hArmed, hPoller, hHandlers, hFds, hHandler, hAdds.handler]
      exact ⟨hMem, hAdds.fds, rfl, hEven⟩
    · obtain rfl : w.poller.fresh + 1 = e := Option.some.inj (hEv'.symm.trans he)
      rw [hArmed, hPoller, hHandlers, hAdds'.handler]
      exact ⟨hAdds'.mem, hAdds'.fds, rfl, by omega⟩
  · simp only [hUnderWay, if_false] at hPoller hHandlers hEv'
    have hNone := hEv'.trans (hConnect.resolve_left hUnderWay)
    have hArmed : w'.armed = w₁.armed := by rw [armed, armed, hPoller, hHandlers]
    refine h.join (by rw [hPoller, hArmed]; exact hReports) (fun e he => ?_) (fun e he => ?_) (fun e he => ?_)
      (fun e he => ?_) hFresh hConns hSome ⟨hPair, hPair'⟩ hListen hSockets hFree hFd'
    · rw [hArmed, hPoller, hHandlers]
      exact hAdds.kept e he
    · rw [hArmed, hAdds.armed] at he
      rcases he with rfl | he
      · exact Or.inr (Or.inl hEv)
      · exact Or.inl he
    · obtain rfl : w.poller.fresh = e := Option.some.inj (hEv.symm.trans he)
      rw [hArmed, hPoller, hHandlers, hAdds.handler]
      exact ⟨hAdds.mem, hAdds.fds, rfl, hEven⟩
    · rw [hNone] at he
      cases he

end Events

/-- The kernel has made the sockets `fd` and `fd'` for a client and its upstream. The upstream
comes to be under way, or the block of the pair holds a NULL event. -/
structure Granted (w : Worker) (a : Arrival) (fd fd' : Int) : Prop where
  nonneg : 0 ≤ fd
  unused : fd ∉ w.sockets
  socket : a.socket = some fd'
  unused' : fd' ∉ w.sockets
  apart : fd' ≠ fd
  connect : a.connect = .einprogress ∨ (w.conns.junk (w.conns.fresh + 1)).ev = none

/-- What the kernel grants to `start_accept`: sockets that are not open yet. -/
def Grants (w : Worker) : List Arrival → Prop
  | [] => True
  | a :: arrivals =>
      match a.accept with
      | .socket fd => (∃ fd', w.Granted a fd fd') ∧ Grants ((w.opened fd).httpInitConnection fd a).2 arrivals
      | .econnaborted => Grants w arrivals
      | _ => True

section Accept

variable {w w' : Worker}

theorem Wired.opened (h : w.Wired) (fd : Int) : (w.opened fd).Wired where
  reports := h.reports
  owner := h.owner
  event := h.event
  client := h.client
  pair := h.pair
  socket i c hc := ⟨List.mem_append_left _ (h.socket i c hc).1, (h.socket i c hc).2⟩
  apart := h.apart
  even := h.even
  listen := List.mem_append_left _ h.listen

theorem Wired.free (h : w.Wired) {fd : Int} (hFd : fd ∉ w.sockets) : (w.opened fd).Free fd where
  opened := List.mem_append_right _ (List.mem_singleton_self fd)
  other hEq := hFd (hEq ▸ h.listen)
  unused i c hc hEq := hFd (hEq ▸ (h.socket i c hc).1)

/-- A socket is none of the codes of `lt_accept`. -/
theorem ltAccept_socket {fd : Int} (h : 0 ≤ fd) :
    ltAccept (.socket fd) ≠ Res.lagain.code ∧ ltAccept (.socket fd) ≠ labort ∧
      ltAccept (.socket fd) ≠ Res.lerror.code := by
  simp only [ltAccept, Res.code, labort]
  omega

/-- What every new client keeps is kept by the turns of `start_accept`. The induction is
on the turns that are left of its bound. -/
theorem acceptTurns_keeps {I : Worker → Prop} {n : Nat} {arrivals : List Arrival} {rv : Int}
    (hGrants : w.Grants (arrivals.take n)) (hCall : w.acceptTurns n arrivals = .returned rv w') (hStart : I w)
    (hInit : ∀ v a fd fd', I v → v.Granted a fd fd' → I ((v.opened fd).httpInitConnection fd a).2) : I w' := by
  induction n generalizing w arrivals with
  | zero =>
      cases hCall
      exact hStart
  | succ n ih =>
      cases arrivals with
      | nil =>
          cases hCall
          exact hStart
      | cons a arrivals =>
          rw [acceptTurns] at hCall
          rw [List.take_succ_cons, Grants] at hGrants
          cases hAccept : a.accept with
          | socket fd =>
              rw [hAccept] at hCall hGrants
              obtain ⟨⟨fd', hGranted⟩, hRest⟩ := hGrants
              obtain ⟨hAgain, hAbort, hError⟩ := ltAccept_socket hGranted.nonneg
              simp only [if_neg hAgain, if_neg hAbort, if_neg hError] at hCall
              exact ih hRest hCall (hInit w a fd fd' hStart hGranted)
          | eagain =>
              rw [hAccept] at hCall
              cases hCall
              exact hStart
          | econnaborted =>
              rw [hAccept] at hCall hGrants
              exact ih hGrants hCall hStart
          | error =>
              rw [hAccept] at hCall
              cases hCall

theorem startAccept_keeps {I : Worker → Prop} {arrivals : List Arrival} {rv : Int}
    (hGrants : w.Grants (arrivals.take somaxconn)) (hCall : w.startAccept arrivals = .returned rv w') (hStart : I w)
    (hInit : ∀ v a fd fd', I v → v.Granted a fd fd' → I ((v.opened fd).httpInitConnection fd a).2) : I w' :=
  acceptTurns_keeps hGrants hCall hStart hInit

theorem Wired.granted (h : w.Wired) {a : Arrival} {fd fd' : Int} (hGranted : w.Granted a fd fd') :
    ((w.opened fd).httpInitConnection fd a).2.Wired := by
  refine (h.opened fd).httpInitConnection (h.free hGranted.unused) hGranted.socket (fun hMem => ?_) hGranted.connect
  rcases List.mem_append.mp hMem with hMem | hMem
  · exact hGranted.unused' hMem
  · exact hGranted.apart (List.mem_singleton.mp hMem)

theorem Wired.startAccept {arrivals : List Arrival} {rv : Int} (h : w.Wired)
    (hGrants : w.Grants (arrivals.take somaxconn))
    (hCall : w.startAccept arrivals = .returned rv w') : w'.Wired :=
  startAccept_keeps hGrants hCall h fun _ _ _ _ hWired hGranted => hWired.granted hGranted

end Accept

end Worker

end Leactor
