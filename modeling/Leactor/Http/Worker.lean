import Leactor.Event.Interest
import Leactor.Http.ProxyData
import Leactor.Http.Segments

/-! The worker of http.c: `start_accept` makes a connection and its pair for every client,
and from then on the callbacks find the sockets, the events and each other by the
pointers in `connection_t`. Connections are taken to be fresh blocks of `lt_alloc`, as
`Pool.TypedPool.room_iff_le` says for 32 of them, which serve 16 clients. -/
namespace Leactor

open Ascii Scan Loop Memory

/-- The fields of a `connection_t` by which the callbacks find their way. -/
structure ConnectionT where
  fd : Int
  ev : Option Nat
  pair : Option Nat
  status : Int
  deriving DecidableEq, Repr

/-- The callbacks of the worker's events, with their arguments. -/
inductive Handler where
  | startAccept
  | httpDataComing (conn : Nat)
  | proxyConnectWritable (conn : Nat)
  | proxyDataComing (conn : Nat)
  | resendChains (conn : Nat) (h : Head) (chains : Arena LtChain) (outChain : Nat)

/-- What the kernel does for a socket: the outcome of the n-th `writev`, and whether the
`epoll_ctl` behind it is refused. -/
structure Kernel where
  writev : Int → Nat → List UInt8 → WritevOutcome
  refused : Int → Nat → Bool

/-- The worker: its base with the callbacks of the events, the connection pool, the
sockets of the process, how often `writev` was called for each and what it took, and the
byte strings of the chains that were built for each client. -/
structure Worker where
  poller : Poller
  handlers : Nat → Handler
  conns : Arena ConnectionT
  listenFd : Int
  sockets : List Int
  calls : Int → Nat
  taken : Int → List UInt8
  handed : Nat → List (List UInt8)

/-- What `accept4` does. -/
inductive AcceptOutcome where
  | socket (fd : Int)
  | eagain
  | econnaborted
  | error
  deriving DecidableEq, Repr

def labort : Int := -6

def ltAccept : AcceptOutcome → Int
  | .socket fd => fd
  | .eagain => Res.lagain.code
  | .econnaborted => labort
  | .error => Res.lerror.code

/-- What `connect` does on a socket that does not block. -/
inductive ConnectOutcome where
  | connected
  | einprogress
  | error
  deriving DecidableEq, Repr

/-- What a turn of `start_accept` meets: `accept4`, the socket for the upstream, where
there is one, its `connect`, and whether `epoll_ctl` refuses the two sockets. -/
structure Arrival where
  accept : AcceptOutcome
  socket : Option Int
  connect : ConnectOutcome
  refusedClient : Bool
  refusedPair : Bool

namespace Worker

def modify (w : Worker) (conn : Nat) (g : ConnectionT → ConnectionT) : Worker :=
  { w with conns := w.conns.modify conn g }

def setStatus (w : Worker) (conn : Nat) (status : Int) : Worker :=
  w.modify conn fun c => { c with status := status }

def opened (w : Worker) (fd : Int) : Worker := { w with sockets := w.sockets ++ [fd] }

def took (w : Worker) (fd : Int) (bytes : List UInt8) : Worker :=
  { w with
    calls := Function.update w.calls fd (w.calls fd + 1)
    taken := Function.update w.taken fd (w.taken fd ++ bytes) }

/-- A chain of `bytes` that was built for a client. -/
def handing (w : Worker) (conn : Nat) (bytes : List UInt8) : Worker :=
  { w with handed := Function.update w.handed conn (w.handed conn ++ [bytes]) }

/-- `lt_io_add` with `NO_TIMEOUT`, which leaves the clock and the heap alone. -/
def ltIoAdd (w : Worker) (fd : Int) (flag : Nat) (callback : Handler) (refused : Bool) : Nat × Worker :=
  let (e, poller) := w.poller.ltIoAdd fd flag noTimeout ⟨0, 0⟩ true refused
  (e, { w with poller := poller, handlers := Function.update w.handlers e callback })

/-- `lt_io_mod` with `NO_TIMEOUT`, which does nothing to a NULL event. -/
def ltIoMod (w : Worker) (ev : Option Nat) (flag : Nat) (callback : Handler) (refused : Bool) : Worker :=
  match ev with
  | none => w
  | some e => { w with
      poller := w.poller.ltIoMod e flag noTimeout ⟨0, 0⟩ true refused
      handlers := Function.update w.handlers e callback }

def ltNewPostCallback (w : Worker) (callback : Handler) (fd : Int) : Worker :=
  let (e, poller) := w.poller.ltNewPostCallback fd
  { w with poller := poller, handlers := Function.update w.handlers e callback }

/-- `proxy_connect`. Only where the connection is under way does the pair get an event. -/
def proxyConnect (w : Worker) (conn : Nat) (a : Arrival) : Res × Worker :=
  let (pair, conns) := w.conns.alloc
  let w := { w with conns := conns }
  let w := (w.modify conn fun c => { c with pair := some pair }).modify pair fun c => { c with pair := some conn }
  match a.socket with
  | none => (.lerror, w.modify pair fun c => { c with fd := -1 })
  | some fd =>
      let w := (w.opened fd).modify pair fun c => { c with fd := fd, status := lProxyConnecting }
      match a.connect with
      | .einprogress =>
          let (e, w) := w.ltIoAdd fd (lvFdwr ||| lvConn ||| lvOneshot) (.proxyConnectWritable pair) a.refusedPair
          (.lagain, w.modify pair fun c => { c with ev := some e })
      | .connected => (.lok, w.setStatus pair lProxyConnected)
      | .error => (.lerror, w)

/-- `http_init_connection`. Where the upstream cannot be reached it returns NULL, and
leaves the client's event in place. -/
def httpInitConnection (w : Worker) (fd : Int) (a : Arrival) : Option Nat × Worker :=
  let (conn, conns) := w.conns.alloc
  let w := { w with conns := conns }
  let w := w.modify conn fun c => { c with fd := fd, status := lConnectingAccepted }
  let (e, w) := w.ltIoAdd fd (lvFdrd ||| lvConn) (.httpDataComing conn) a.refusedClient
  let w := w.modify conn fun c => { c with ev := some e }
  let (rv, w) := w.proxyConnect conn a
  (if rv = .lerror then none else some conn, w)

/-- How `start_accept` ends: it returns, or ends the process. -/
inductive Accepting where
  | returned (rv : Int) (w : Worker)
  | exited (w : Worker)

def somaxconn : Nat := 4096

/-- The loop of `start_accept`, with `n` turns left. Behind the last arrival `accept4` gives `EAGAIN`. -/
def acceptTurns (w : Worker) : Nat → List Arrival → Accepting
  | 0, _ => .returned 0 w
  | _ + 1, [] => .returned (-1) w
  | n + 1, a :: arrivals =>
      let fd := ltAccept a.accept
      if fd = Res.lagain.code then .returned (-1) w
      else if fd = labort then w.acceptTurns n arrivals
      else if fd = Res.lerror.code then .exited w
      else ((w.opened fd).httpInitConnection fd a).2.acceptTurns n arrivals

def startAccept (w : Worker) (arrivals : List Arrival) : Accepting := w.acceptTurns somaxconn arrivals

/-- `proxy_connect_writable`, where `getsockopt` reports no error of the connection or one. -/
def proxyConnectWritable (w : Worker) (conn : Nat) (connected : Bool) : Worker :=
  if connected then w.setStatus conn lProxyConnected else w

/-- The `switch` of `http_send_to_upstream`, with the event that is posted for a rest. -/
def settleSend (w : Worker) (conn pair : Nat) (fd : Int) (posted : Handler) : Res → Worker
  | .lok => (w.setStatus conn lConnectingAccepted).setStatus pair lProxyWaitingResponse
  | .lagain => (w.ltNewPostCallback posted fd).setStatus pair lProxyWriting
  | .lclose => w.setStatus pair lProxyClosing
  | _ => w.setStatus pair lProxyError

section Send

-- What the blocks of the chain pools held before, by client and request.
variable (k : Kernel) (junk : Nat → Nat → Nat → LtChain)

/-- `http_send_to_upstream`, for a request of the connection `conn`. `none` is a step over a
NULL pointer, or undefined behaviour in `send_chains` or `destructor_chains`. -/
def httpSendToUpstream (conn : Nat) (h : Head) (chains : Arena LtChain) (outChain : Nat) (w : Worker) :
    Option Worker :=
  (w.conns.get? conn).bind fun client => client.ev.bind fun _ => client.pair.bind fun pair =>
    (w.conns.get? pair).bind fun proxy => (outVec chains outChain).bind fun vec =>
      let offered := iovBytes h.mem vec.1
      let n := w.calls proxy.fd
      let out := k.writev proxy.fd n offered
      (sendOutChain chains outChain out).map fun result =>
        let w := w.took proxy.fd (offered.take out.count)
        let w := w.settleSend conn pair proxy.fd (.resendChains conn h result.2.1 outChain) result.1
        w.ltIoMod proxy.ev (lvFdrd ||| lvConn) (.proxyDataComing pair) (k.refused proxy.fd n)

/-- What `http_process_request_line` does with a finished request of the connection `conn`. -/
def sendRequest (conn : Nat) (h : Head) (w : Worker) : Option Worker :=
  (httpConstructRequestChains h ⟨[], junk conn (w.handed conn).length⟩).bind fun built =>
    (outVec built.2 built.1).bind fun vec =>
      httpSendToUpstream k conn h built.2 built.1 (w.handing conn (iovBytes h.mem vec.1))

end Send

section Callbacks

variable (k : Kernel) (junk : Nat → Nat → Nat → LtChain)

/-- `http_data_coming` on the connection `conn`. It parses what it has received only for an
accepted connection. -/
inductive HttpDataComing (u : ClientWakeUp) (conn : Nat) (w : Worker) : Worker → Prop where
  | parsed {client : ConnectionT} {rv : Int} {s : RecvState} {res : Res} {h : Head} {w' : Worker}
      (hConn : w.conns.get? conn = some client) (hStatus : client.status = lConnectingAccepted)
      (hRecv : u.Receives u.mem rv s)
      (hLine : Returns (requestTurn (sendRequest k junk conn)) (.requestLine, u.head s, w) (some (res, h, w'))) :
      HttpDataComing u conn w w'
  | ignored {client : ConnectionT} (hConn : w.conns.get? conn = some client)
      (hStatus : client.status ≠ lConnectingAccepted) : HttpDataComing u conn w w

/-- The pair as `proxy_data_coming` finds it by the pointers of a connection. -/
def proxyConn (w : Worker) (proxy client : ConnectionT) (mem : Mem) : ProxyConn where
  pair :=
    { clientStatus := client.status
      proxyStatus := proxy.status
      base := ⟨[], [], []⟩
      proxyEv := 0
      calls := w.calls proxy.fd
      written := w.taken proxy.fd
      handed := [] }
  mem := mem
  sent := w.taken client.fd

/-- `proxy_data_coming` on the connection `conn`: it sets the status of the connection,
and sends to the socket of its pair. -/
inductive ProxyDataComing (u : ProxyWakeUp) (conn : Nat) (w : Worker) : Worker → Prop where
  | call {proxy client : ConnectionT} {pair : Nat} {mem : Mem} {handling : Handling} {c : ProxyConn}
      (hConn : w.conns.get? conn = some proxy) (hPair : proxy.pair = some pair)
      (hClient : w.conns.get? pair = some client)
      (hCall : Leactor.ProxyDataComing u (w.proxyConn proxy client mem) handling c) :
      ProxyDataComing u conn w
        { w.setStatus conn c.status with taken := Function.update w.taken client.fd c.sent }

end Callbacks

/-- `http_worker_new`, as far as `http_add_listen` puts the listening socket into epoll. -/
def httpWorkerNew (poller : Poller) (handlers : Nat → Handler) (junk : Nat → ConnectionT) (listenFd : Int)
    (refused : Bool) : Worker :=
  (ltIoAdd
    { poller := poller, handlers := handlers, conns := ⟨[], junk⟩, listenFd := listenFd, sockets := [listenFd]
      calls := fun _ => 0, taken := fun _ => [], handed := fun _ => [] }
    listenFd (lvConn ||| lvFdrd) .startAccept refused).2

end Worker

/-- The socket that epoll reports, with what its callback meets. -/
inductive WorkerAction where
  | accept (fd : Int) (arrivals : List Arrival)
  | request (fd : Int) (u : ClientWakeUp)
  | writable (fd : Int) (connected : Bool)
  | response (fd : Int) (u : ProxyWakeUp)
  | resend (fd : Int)

def WorkerAction.fd : WorkerAction → Int
  | .accept fd _ => fd
  | .request fd _ => fd
  | .writable fd _ => fd
  | .response fd _ => fd
  | .resend fd => fd

namespace Worker

/-- The callback of the event that epoll holds for the socket. -/
def Reports (w : Worker) (fd : Int) (callback : Handler) : Prop :=
  ∃ x, w.poller.table fd = some x ∧ w.handlers x.data = callback

/-- A socket is reported, and the callback of its event comes back. No event of the worker
lags, so that `lt_loop_init_actlist` calls it at once. -/
inductive Step (k : Kernel) (junk : Nat → Nat → Nat → LtChain) (w : Worker) :
    WorkerAction → Worker → Prop where
  | accept {fd rv : Int} {arrivals : List Arrival} {w' : Worker} (hReports : w.Reports fd .startAccept)
      (hCall : w.startAccept arrivals = .returned rv w') : Step k junk w (.accept fd arrivals) w'
  | request {fd : Int} {u : ClientWakeUp} {conn : Nat} {w' : Worker} (hReports : w.Reports fd (.httpDataComing conn))
      (hCall : HttpDataComing k junk u conn w w') : Step k junk w (.request fd u) w'
  | writable {fd : Int} {connected : Bool} {conn : Nat} (hReports : w.Reports fd (.proxyConnectWritable conn)) :
      Step k junk w (.writable fd connected) (w.proxyConnectWritable conn connected)
  | response {fd : Int} {u : ProxyWakeUp} {conn : Nat} {w' : Worker} (hReports : w.Reports fd (.proxyDataComing conn))
      (hCall : ProxyDataComing u conn w w') : Step k junk w (.response fd u) w'
  | resend {fd : Int} {conn : Nat} {h : Head} {chains : Arena LtChain} {outChain : Nat} {w' : Worker}
      (hReports : w.Reports fd (.resendChains conn h chains outChain))
      (hCall : httpSendToUpstream k conn h chains outChain w = some w') : Step k junk w (.resend fd) w'

end Worker

end Leactor
