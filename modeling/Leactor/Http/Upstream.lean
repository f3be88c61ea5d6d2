import Leactor.Http.RequestForward
import Leactor.Net.StaleLink
import Leactor.Pool.Rollover

/-! The way upstream: `http_send_to_upstream` of proxy.c between two requests of
`http_process_request_line`, on a client connection and its `pair`. -/
namespace Leactor

open Ascii Scan Loop Memory

def lProxyConnected : Int := -1

def lProxyConnecting : Int := -2

def lConnectingAccepted : Int := -3

def lProxyWaitingResponse : Int := -4

/-- The same value as `L_PROXY_WAITING_RESPONSE`. -/
def lHttpWritingResponseHeader : Int := -4

def lProxyWriting : Int := -5

def lProxyError : Int := -6

def lHttpError : Int := -6

def lProxyClosing : Int := -8

def lHttpClosing : Int := -8

def lHttpWroteResponseHeader : Int := -9

/-- The callbacks of a connection's events, with the request and its `out_chain`
where they are an event's argument. -/
inductive ConnCallback where
  | httpDataComing
  | proxyConnectWritable
  | proxyDataComing
  | resendChains (h : Head) (chains : Arena LtChain) (outChain : Nat)

/-- The events made so far, by their callbacks, those registered with epoll, and
those linked in the active list. -/
structure ConnEvents where
  callbacks : List ConnCallback
  registered : List Nat
  active : List Nat

namespace ConnEvents

/-- `lt_new_post_callback`. The lines that would link the event are commented out. -/
def ltNewPostCallback (b : ConnEvents) (callback : ConnCallback) : ConnEvents :=
  { b with callbacks := b.callbacks ++ [callback] }

def ltIoMod (b : ConnEvents) (e : Nat) (callback : ConnCallback) : ConnEvents :=
  { b with callbacks := b.callbacks.set e callback }

end ConnEvents

/-- A client connection and its `pair`: the two statuses, the events, how often
`writev` was called for the upstream socket and what it took, and the byte strings
of the chains handed to `http_send_to_upstream`. -/
structure ConnPair where
  clientStatus : Int
  proxyStatus : Int
  base : ConnEvents
  proxyEv : Nat
  calls : Nat
  written : List UInt8
  handed : List (List UInt8)

/-- The pair that `http_init_connection` sets up, with the connection to the
upstream under way. -/
def httpInitConnection : ConnPair where
  clientStatus := lConnectingAccepted
  proxyStatus := lProxyConnecting
  base := { callbacks := [.httpDataComing, .proxyConnectWritable], registered := [0, 1], active := [] }
  proxyEv := 1
  calls := 0
  written := []
  handed := []

/-- `destructor_chains`. Where there is a second pool, `lt_destroy_memory_pool` frees the first one twice. -/
def destructorChains (chains : Arena LtChain) : Option Unit :=
  if chains.fresh ≤ chainPoolLength then some () else none

/-- `sizeof(lt_chain_t)` -/
def sizeofLtChain : Nat := 40

/-- The chain pool's `lt_destroy_memory_pool` comes back exactly where `destructor_chains`
is said to, with as many nodes as `lt_alloc` was asked for. -/
theorem destructorChains_iff {s : Pool.PoolState} {blocks : List Nat} {chains : Arena LtChain}
    (run : Pool.AllocRun sizeofLtChain chainPoolLength s blocks)
    (hBelow : Pool.Below sizeofLtChain chainPoolLength s) (hNodes : chains.fresh = blocks.length) :
    destructorChains chains = some () ↔ ∃ freed, Pool.LtDestroyMemoryPool s freed := by
  have hCapacity : Pool.capacity sizeofLtChain chainPoolLength / Pool.stride sizeofLtChain = chainPoolLength := rfl
  rw [Pool.destroys_iff_of_run run (by decide) (by decide) hBelow, hCapacity, destructorChains, hNodes,
    ite_eq_left_iff]
  exact ⟨fun h => by_contra fun hNot => absurd (h hNot) (Option.some_ne_none _).symm, fun h hNot => absurd h hNot⟩

/-- The nodes that the pools of a run have room for, counting the one that each full pool
has given away behind its end. -/
theorem poolBlocks_of_run {s : Pool.PoolState} {blocks : List Nat}
    (run : Pool.AllocRun sizeofLtChain chainPoolLength s blocks)
    (hBelow : Pool.Below sizeofLtChain chainPoolLength s) :
    ∃ qs, Pool.Chained s qs ∧ poolBlocks blocks.length + 1 = (chainPoolLength + 1) * qs.length := by
  have hPool : Pool.perPool sizeofLtChain chainPoolLength = chainPoolLength + 1 := rfl
  obtain ⟨qs, hFilled⟩ := run.filled (by decide) (by decide) hBelow
  refine ⟨qs, hFilled.toChained, ?_⟩
  rw [hFilled.pools, hPool, poolBlocks, Nat.mul_add, Nat.mul_one, Nat.add_assoc]

/-- `send_chains` in `http_send_to_upstream`, with the `destructor_chains` of case `LOK`. -/
def sendOutChain (chains : Arena LtChain) (outChain : Nat) (out : WritevOutcome) :
    Option (Res × Arena LtChain × Option Nat) :=
  (sendPooled chains outChain out).bind fun result =>
    if result.1 = .lok then (destructorChains chains).map fun _ => result else some result

section Send

-- What the n-th `writev` does with the bytes it is offered, and what the blocks
-- of the n-th chain pool held before.
variable (writev : Nat → List UInt8 → WritevOutcome) (junk : Nat → Nat → LtChain)

/-- `http_send_to_upstream`. The chain in `req->out_chain` stays the one built, wherever
`send_chains` moves its own pointer. -/
def httpSendToUpstream (h : Head) (chains : Arena LtChain) (outChain : Nat) (p : ConnPair) : Option ConnPair :=
  (outVec chains outChain).bind fun vec =>
    let offered := iovBytes h.mem vec.1
    let out := writev p.calls offered
    (sendOutChain chains outChain out).map fun result =>
      let p := { p with calls := p.calls + 1, written := p.written ++ offered.take out.count }
      let p :=
        match result.1 with
        | .lok => { p with clientStatus := lConnectingAccepted, proxyStatus := lProxyWaitingResponse }
        | .lagain => { p with
            base := p.base.ltNewPostCallback (.resendChains h result.2.1 outChain)
            proxyStatus := lProxyWriting }
        | .lclose => { p with proxyStatus := lProxyClosing }
        | _ => { p with proxyStatus := lProxyError }
      { p with base := p.base.ltIoMod p.proxyEv .proxyDataComing }

/-- What `http_process_request_line` does with a finished request: it builds the
chain in a pool of its own and sends it. -/
def sendRequest (h : Head) (p : ConnPair) : Option ConnPair :=
  (httpConstructRequestChains h ⟨[], junk p.handed.length⟩).bind fun built =>
    (outVec built.2 built.1).bind fun vec =>
      httpSendToUpstream writev h built.2 built.1 { p with handed := p.handed ++ [iovBytes h.mem vec.1] }

end Send

/-- The pair behind a chain of the bytes `w` that went out whole. -/
def ConnPair.forwarded (p : ConnPair) (w : List UInt8) : ConnPair :=
  { p with
    clientStatus := lConnectingAccepted
    proxyStatus := lProxyWaitingResponse
    base := p.base.ltIoMod p.proxyEv .proxyDataComing
    calls := p.calls + 1
    written := p.written ++ w
    handed := p.handed ++ [w] }

theorem length_elementIovecs (fields : List (LtString × LtString)) :
    (elementIovecs fields).length = 2 * fields.length := by
  induction fields with
  | nil => rfl
  | cons f fields ih =>
      cases fields with
      | nil => rfl
      | cons g fields =>
          rw [elementIovecs_cons (List.cons_ne_nil _ _)]
          simp only [List.length_cons] at ih ⊢
          omega

theorem length_requestIovecs (r : RequestT) (fields : List (LtString × LtString)) :
    (requestIovecs r fields).length = 2 * fields.length + 3 := by
  rw [requestIovecs, List.length_append, length_elementIovecs]
  simp only [List.length_cons, List.length_nil]
  omega

theorem sendPooled_of_sendOutChain {chains : Arena LtChain} {first : Nat} {out : WritevOutcome}
    {result : Res × Arena LtChain × Option Nat} (h : sendOutChain chains first out = some result) :
    sendPooled chains first out = some result := by
  obtain ⟨result', hSend, hRest⟩ := Option.bind_eq_some_iff.mp h
  split_ifs at hRest
  · obtain ⟨-, -, rfl⟩ := Option.map_eq_some_iff.mp hRest
    exact hSend
  · cases hRest
    exact hSend

/-- The call comes back with `res` from a chain of `n` nodes that was written whole, in a pool
whose blocks held `junk`. -/
def ChainReturns (junk : Nat → LtChain) (n : Nat) (res : Res) : Prop :=
  chainEnd junk n = some res ∧ (res = .lok → n ≤ chainPoolLength)

/-- What a chain of the bytes `w` leaves in the pair, when it was written whole. -/
structure ConnPair.Passes (p : ConnPair) (w : List UInt8) (p' : ConnPair) : Prop where
  calls : p'.calls = p.calls + 1
  written : p'.written = p.written ++ w
  handed : p'.handed = p.handed ++ [w]
  proxyEv : p'.proxyEv = p.proxyEv
  base : ∃ posted, p'.base =
    { p.base with callbacks := p.base.callbacks ++ posted }.ltIoMod p.proxyEv .proxyDataComing

theorem chainReturns_null {junk : Nat → LtChain} {n : Nat} (hLink : (junk (n - 1)).next = none) (res : Res) :
    ChainReturns junk n res ↔ res = .lok ∧ n ≤ chainPoolLength := by
  have hEnd : chainEnd junk n = some .lok := by
    rw [chainEnd, hLink]
    cases poolBlocks n - n <;> rfl
  rw [ChainReturns, hEnd, Option.some.injEq]
  exact ⟨fun ⟨hCode, hFew⟩ => ⟨hCode.symm, hFew hCode.symm⟩, fun ⟨hCode, hFew⟩ => ⟨hCode.symm, fun _ => hFew⟩⟩

/-- The call on a chain alone in its pool, with all its bytes written. It returns as the
walk behind the chain and the release of its pools do. -/
theorem BuiltChain.sendOutChain_whole {junk : Nat → LtChain} {chains : Arena LtChain} {bufs : List Iovec} (mem : Mem)
    (h : BuiltChain junk chains 0 bufs) (hBytes : iovBytes mem bufs ≠ [])
    (hBound : (iovBytes mem bufs).length < 2 ^ 31) (res : Res) :
    ChainReturns junk bufs.length res ↔
      ∃ rest, sendOutChain chains 0 (.wrote (iovBytes mem bufs).length) = some (res, rest) := by
  have hEnd := h.sendPooled_fst mem hBytes hBound
  have hFresh := h.row.fresh
  rw [Nat.zero_add] at hFresh
  rw [ChainReturns, ← hEnd, sendOutChain, destructorChains, hFresh]
  cases sendPooled chains 0 (.wrote (iovBytes mem bufs).length) with
  | none => simp
  | some result =>
      obtain ⟨code, rest⟩ := result
      simp only [Option.map_some, Option.some.injEq, Option.bind_some]
      by_cases hLok : code = .lok
      · subst hLok
        by_cases hFew : bufs.length ≤ chainPoolLength
        · simp only [hFew, if_true, Option.map_some, Option.some.injEq, Prod.mk.injEq]
          exact ⟨fun hCode => ⟨rest, hCode.1, rfl⟩, fun ⟨_, hCode, _⟩ => ⟨hCode, fun _ => trivial⟩⟩
        · simp only [hFew, if_true, if_false, Option.map_none, reduceCtorEq, exists_false, iff_false]
          rintro ⟨rfl, hAll⟩
          exact hAll rfl
      · rw [if_neg hLok]
        simp only [Option.some.injEq, Prod.mk.injEq]
        refine ⟨fun hCode => ⟨rest, hCode.1, rfl⟩, fun ⟨_, hCode, _⟩ => ⟨hCode, fun hSame => ?_⟩⟩
        exact absurd (hCode.trans hSame) hLok

section Whole

variable {writev : Nat → List UInt8 → WritevOutcome} {junk : Nat → Nat → LtChain} {h : Head} {base : Nat}
  {fields : List (LtString × LtString)} {p : ConnPair} {w : List UInt8}

/-- The chain of a finished head, with the link behind its last node. -/
theorem ElementList.built (hList : ElementList h base fields) (junk : Nat → LtChain) :
    ∃ chains, httpConstructRequestChains h ⟨[], junk⟩ = some (0, chains) ∧
      BuiltChain junk chains 0 (requestIovecs h.req fields) ∧
      outVec chains 0 = some (requestIovecs h.req fields, (junk (2 * fields.length + 2)).next) := by
  obtain ⟨chains, hConstruct, hChain⟩ := httpConstructRequestChains_built ⟨[], junk⟩ hList
  have hFresh := hChain.row.fresh
  rw [length_requestIovecs, show Arena.fresh ⟨[], junk⟩ = 0 from rfl, Nat.zero_add] at hFresh
  have hVec := hChain.outVec (by simp [requestIovecs])
  rw [hFresh] at hVec
  exact ⟨chains, hConstruct, hChain, hVec⟩

/-- A chain that is written whole goes out where the call comes back. -/
theorem sendRequest_returns {res : Res} (hList : ElementList h base fields)
    (hBytes : iovBytes h.mem (requestIovecs h.req fields) = w) (hNe : w ≠ []) (hBound : w.length < 2 ^ 31)
    (hReturns : ChainReturns (junk p.handed.length) (2 * fields.length + 3) res)
    (hWhole : writev p.calls w = .wrote w.length) :
    ∃ p', sendRequest writev junk h p = some p' ∧ p.Passes w p' ∧ (res = .lok → p' = p.forwarded w) := by
  obtain ⟨chains, hConstruct, hChain, hVec⟩ := hList.built (junk p.handed.length)
  rw [← length_requestIovecs h.req] at hReturns
  obtain ⟨⟨chains', out⟩, hSend⟩ :=
    (hChain.sendOutChain_whole h.mem (by rwa [hBytes]) (by rwa [hBytes]) res).mp hReturns
  rw [hBytes] at hSend
  refine ⟨_, by
    simp only [sendRequest, hConstruct, Option.bind_some, hVec, httpSendToUpstream, hBytes, hWhole, hSend,
      Option.map_some, WritevOutcome.count, List.take_length]
    rfl, ?_, ?_⟩
  · cases res with
    | lagain => exact ⟨rfl, rfl, rfl, rfl, [_], rfl⟩
    | _ => exact ⟨rfl, rfl, rfl, rfl, [], by simp only [List.append_nil]⟩
  · rintro rfl
    rfl

/-- Where the call does not come back, nothing does. -/
theorem sendRequest_undefined (hList : ElementList h base fields)
    (hBytes : iovBytes h.mem (requestIovecs h.req fields) = w) (hNe : w ≠ []) (hBound : w.length < 2 ^ 31)
    (hNot : ∀ res, ¬ ChainReturns (junk p.handed.length) (2 * fields.length + 3) res)
    (hWhole : writev p.calls w = .wrote w.length) : sendRequest writev junk h p = none := by
  obtain ⟨chains, hConstruct, hChain, hVec⟩ := hList.built (junk p.handed.length)
  rw [← length_requestIovecs h.req] at hNot
  have hSend : sendOutChain chains 0 (.wrote w.length) = none := by
    refine Option.eq_none_iff_forall_ne_some.mpr fun result hSome => hNot result.1 ?_
    exact (hChain.sendOutChain_whole h.mem (by rwa [hBytes]) (by rwa [hBytes]) _).mpr ⟨result.2, by rwa [hBytes]⟩
  simp only [sendRequest, hConstruct, Option.bind_some, hVec, httpSendToUpstream, hBytes, hWhole, hSend,
    Option.map_none]

end Whole

/-- The slices of a request are not all empty: the method's is not. -/
theorem iovBytes_requestIovecs_ne (mem : Mem) {r : RequestT} (fields : List (LtString × LtString))
    (hMethod : 0 < (r.methodName.widen 1).len) : iovBytes mem (requestIovecs r fields) ≠ [] := by
  refine List.ne_nil_of_length_pos ?_
  rw [length_iovBytes, requestIovecs, List.map_append, List.sum_append]
  simp only [List.map_cons, List.sum_cons]
  omega

/-- A request line's method, widened by the space behind it. -/
theorem StoredLine.method_pos {t : RequestLineText} {p : Nat} {r r' : RequestT} (h : StoredLine t p r r')
    (hBound : t.bytes.length < 2 ^ 31) : 0 < (r'.methodName.widen 1).len := by
  obtain ⟨hOpening, hMethod, hFront, hBytes⟩ := t.length_bytes
  rw [h.methodName, widen_of_bounds _ (by omega) (by omega)]
  exact Nat.lt_of_lt_of_le Nat.one_pos (Nat.le_add_left _ _)

/-- A request as the builder expects it: a request line of a path without a mark and
a version, ended by CR LF, in front of a relayable block. -/
structure RequestText where
  line : RequestLineText
  block : HeaderBlock
  path : line.target.HasPath
  unmarked : ¬ line.target.Marked
  version : line.version.isSome
  current : line.versionNumber ≠ 9
  crlf : line.crlf = true
  readable : block.Readable 0
  relayable : block.Relayable

namespace RequestText

def bytes (x : RequestText) : List UInt8 := x.line.bytes ++ x.block.bytes

def sent (x : RequestText) : List UInt8 := x.line.relayed.bytes ++ x.block.relayed.bytes

def headers (x : RequestText) : Nat := (x.block.lines.filter fun e => e.2.Valid).length

/-- The chain of the request fits one chain pool. -/
def OnePool (x : RequestText) : Prop := 2 * x.headers + 3 ≤ chainPoolLength

instance (x : RequestText) : Decidable x.OnePool := inferInstanceAs (Decidable (2 * x.headers + 3 ≤ chainPoolLength))

theorem sent_ne_nil (x : RequestText) : x.sent ≠ [] := by
  rw [sent, RequestLineText.relayed_bytes x.path]
  simp

theorem sent_length (x : RequestText) : x.sent.length ≤ 2 * x.bytes.length := by
  have hLine := x.line.relayed_length x.path x.version
  have hBlock := x.block.relayed_length
  simp only [sent, bytes, List.length_append]
  omega

end RequestText

theorem length_lineElements (p : Nat) (lines : List (List UInt8 × HeaderText)) :
    (lineElements p lines).length = (lines.filter fun e => e.2.Valid).length := by
  induction lines generalizing p with
  | nil => rfl
  | cons e lines ih =>
      obtain ⟨skip, l⟩ := e
      rw [lineElements, List.length_append, ih, List.filter_cons]
      by_cases hValid : l.Valid
      · simp only [hValid, if_true, decide_true, List.length_cons, List.length_nil]
        omega
      · simp only [hValid, if_false, decide_false, List.length_nil, Nat.zero_add, Bool.false_eq_true]

/-- A head from which the next request is read: no old state, mark, or upstream is in the way. -/
structure Ready (h : Head) : Prop where
  state : h.req.state = 0
  unmarked : ¬ h.req.UriMarked
  upstream : h.req.upstream = 0

/-- A request line and a header block at the front of the unread bytes are read. -/
theorem exists_headersRead {h : Head} {rest : List UInt8} (t : RequestLineText) (blk : HeaderBlock)
    (hState : h.req.state = 0) (hUnread : h.buf.unread h.mem = t.bytes ++ (blk.bytes ++ rest))
    (hVersion : t.version.isSome) (hCurrent : t.versionNumber ≠ 9) (hRead : blk.Readable h.req.upstream)
    (hBound : t.bytes.length + blk.bytes.length < 2 ^ 31) :
    ∃ q h', ReadsRequestLine h.mem t h.buf.pos h.req q ∧ AcceptsRequest h h' ∧
      HeadersRead { h with
        req := httpRequestLineParsed (requestLineDone (h.buf.pos + t.bytes.length - 1) q).2
          { h.buf with pos := h.buf.pos + t.bytes.length }
        buf := { h.buf with pos := h.buf.pos + t.bytes.length } } h' (h.buf.pos + t.bytes.length) blk ∧
      h'.buf.unread h'.mem = rest := by
  obtain ⟨q, hReads, hLine⟩ := ngxHttpParseRequestLine_text t hState hUnread
  have hDone : (requestLineDone (h.buf.pos + t.bytes.length - 1) q).1 = .lok :=
    (requestLineDone_lok _ hReads hVersion).mpr fun hOld => hCurrent hOld.1
  rw [hDone] at hLine
  have hStored := httpRequestLineParsed_stored { h.buf with pos := h.buf.pos + t.bytes.length } hReads (by omega)
  obtain ⟨h', hReturns, hHeaders⟩ := returns_of_block
    (h := { h with
      req := httpRequestLineParsed (requestLineDone (h.buf.pos + t.bytes.length - 1) q).2
        { h.buf with pos := h.buf.pos + t.bytes.length }
      buf := { h.buf with pos := h.buf.pos + t.bytes.length } })
    blk hStored.state (slice_eq_append hUnread).2 (by rwa [hStored.upstream]) (by omega)
  refine ⟨q, h', hReads, ⟨_, _, hLine, hReturns⟩, hHeaders, ?_⟩
  have hRest := (slice_eq_append (slice_eq_append hUnread).2).2
  rw [LtBuffer.unread, hHeaders.buf, hHeaders.mem, ← hRest]
  refine slice_congr fun y hy _ => lowerLines_frame _ (Or.inr ?_)
  have hBehind : h.buf.pos + t.bytes.length + blk.bytes.length ≤ y := hy
  rw [HeaderBlock.bytes, List.length_append] at hBehind
  exact (Nat.le_add_right _ _).trans ((Nat.add_assoc _ _ _).le.trans hBehind)

/-- One request at the front of the unread bytes: its head is read, its chain is
built, and the next request is read behind it. -/
theorem Ready.request {h : Head} {rest : List UInt8} (hReady : Ready h) (x : RequestText)
    (hUnread : h.buf.unread h.mem = x.bytes ++ rest) (hSize : h.buf.last - h.buf.pos < 2 ^ 30) :
    ∃ h', AcceptsRequest h h' ∧ Ready h' ∧ h'.buf.unread h'.mem = rest ∧
      h'.buf.last - h'.buf.pos < 2 ^ 30 ∧
      ∃ base fields, ElementList h' base fields ∧ fields.length = x.headers ∧
        iovBytes h'.mem (requestIovecs h'.req fields) = x.sent := by
  rw [RequestText.bytes, List.append_assoc] at hUnread
  have hLength := congrArg List.length hUnread
  simp only [LtBuffer.unread, length_slice, List.length_append] at hLength
  obtain ⟨q, h', hReads, hAccepts, hHeaders, hRest⟩ := exists_headersRead x.line x.block hReady.state hUnread
    x.version x.current (by rw [hReady.upstream]; exact x.readable) (by omega)
  have hStored := httpRequestLineParsed_stored { h.buf with pos := h.buf.pos + x.line.bytes.length } hReads
    (by omega)
  have hMarked : ¬ (x.line.target.Marked ∨ h.req.UriMarked) := not_or.mpr ⟨x.unmarked, hReady.unmarked⟩
  have hKeeps := KeepsLine.of_parsed hMarked (Or.inl x.crlf) x.version (by omega) hReads hHeaders
  refine ⟨h', hAccepts, ⟨hHeaders.state, ?_, ?_⟩, hRest, ?_, _, _, hHeaders.list, length_lineElements _ _, ?_⟩
  · have hSame := congrArg RequestT.UriMarked hHeaders.req
    have hParsed : (httpRequestLineParsed (requestLineDone (h.buf.pos + x.line.bytes.length - 1) q).2
        { h.buf with pos := h.buf.pos + x.line.bytes.length }).UriMarked ↔ q.UriMarked := by
      simp only [httpRequestLineParsed, requestLineDone_snd]
      split_ifs <;> exact Iff.rfl
    exact fun hMark => hMarked (hReads.marked.mp (hParsed.mp ((Iff.of_eq hSame).mp hMark)))
  · have hSame := congrArg RequestT.upstream hHeaders.req
    exact hSame.trans (hStored.upstream.trans hReady.upstream)
  · rw [hHeaders.buf]
    simp only
    omega
  · rw [requestIovecs, iovBytes, List.flatMap_append, ← iovBytes, ← iovBytes,
      hHeaders.lineBytes hKeeps hUnread x.path x.version (by omega) x.crlf,
      hHeaders.elementBytes (slice_eq_append hUnread).2 x.relayable (by omega)]
    rfl

end Leactor
