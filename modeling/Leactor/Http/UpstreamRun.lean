import Leactor.Http.Verbatim
import Leactor.Library.Run

/-! Runs of a client connection and its upstream: events are reported and called
in any order, the client's reads among them, and each request that is finished is
sent with whatever `writev` does. -/
namespace Leactor

open Ascii Scan Loop Memory Run

/-- What `http_data_coming` passes on: a request of `http_create_request`, with the
first buffer of the batch. -/
structure Batch where
  head : Head
  state : head.req.state = 0
  size : head.buf.last ≤ head.buf.pos + 16384

/-- What a callback finds: the client's batch, whether the connection came about, and
the status that `proxy_data_coming` leaves. -/
structure Found where
  batch : Batch
  connected : Bool
  status : Int

/-- A connection between two callbacks, in a turn of `http_process_request_line`, or
behind undefined behaviour. -/
inductive ConnState where
  | idle (p : ConnPair)
  | parsing (phase : Phase) (h : Head) (p : ConnPair)
  | undefined

/-- The steps: an event becomes active, an active event is called, and a turn of
`http_process_request_line`. -/
inductive ConnAction where
  | report (e : Nat)
  | call (e : Nat) (found : Found)
  | turn

section Step

variable (writev : Nat → List UInt8 → WritevOutcome) (junk : Nat → Nat → LtChain)

/-- A callback is called. `http_data_coming` parses only for an accepted connection. -/
def ConnCallback.call (callback : ConnCallback) (found : Found) (p : ConnPair) : ConnState :=
  match callback with
  | .httpDataComing =>
      if p.clientStatus = lConnectingAccepted then .parsing .requestLine found.batch.head p else .idle p
  | .proxyConnectWritable =>
      .idle (if found.connected then { p with proxyStatus := lProxyConnected } else p)
  | .proxyDataComing => .idle { p with proxyStatus := found.status }
  | .resendChains h chains outChain =>
      match httpSendToUpstream writev h chains outChain p with
      | some p => .idle p
      | none => .undefined

def connStep : ConnState → ConnAction → Option ConnState
  | .idle p, .report e =>
      if e ∈ p.base.registered then
        some (.idle { p with base := { p.base with active := p.base.active ++ [e] } })
      else none
  | .idle p, .call e found =>
      if e ∈ p.base.active then
        p.base.callbacks[e]?.map fun callback =>
          callback.call writev found { p with base := { p.base with active := p.base.active.erase e } }
      else none
  | .parsing phase h p, .turn =>
      match requestTurn (sendRequest writev junk) (phase, h, p) with
      | .again (phase, h, p) => some (.parsing phase h p)
      | .exit (some (_, _, p)) => some (.idle p)
      | .exit none => some .undefined
  | _, _ => none

/-- Where a turn finishes a request, `writev` takes its chain whole, which has fewer than 2 ^ 31
bytes then, and the call comes back from the walk behind the chain. -/
def TakesWhole : ConnState → ConnAction → Prop
  | .parsing (.headers prev) h p, .turn =>
      ∀ h' first chains bufs last, headerTurn (h, prev) = .exit h' →
        httpConstructRequestChains h' ⟨[], junk p.handed.length⟩ = some (first, chains) →
        outVec chains first = some (bufs, last) →
        writev p.calls (iovBytes h'.mem bufs) = .wrote (iovBytes h'.mem bufs).length ∧
          (iovBytes h'.mem bufs).length < 2 ^ 31 ∧ ∃ res, ChainReturns (junk p.handed.length) bufs.length res
  | _, _ => True

end Step

/-- The callback will be called again: its event is registered, or linked in the active list. -/
def ConnEvents.Scheduled (b : ConnEvents) (callback : ConnCallback) : Prop :=
  ∃ e, (e ∈ b.registered ∨ e ∈ b.active) ∧ b.callbacks[e]? = some callback

/-- The callback sends exactly the bytes `w`. -/
def ConnCallback.Resends (callback : ConnCallback) (w : List UInt8) : Prop :=
  ∃ h chains outChain vec, callback = .resendChains h chains outChain ∧
    outVec chains outChain = some vec ∧ iovBytes h.mem vec.1 = w

/-- What the socket took is a prefix of the chains' bytes, and something is scheduled
for the rest. -/
def ConnPair.InOrder (p : ConnPair) : Prop :=
  p.written <+: p.handed.flatten ∧
    (p.written ≠ p.handed.flatten →
      ∃ callback, p.base.Scheduled callback ∧ callback.Resends (p.handed.flatten.drop p.written.length))

def ConnState.InOrder : ConnState → Prop
  | .idle p => p.InOrder
  | .parsing _ _ p => p.InOrder
  | .undefined => False

/-- The callback is one that is posted for the rest of a chain. -/
def ConnCallback.Posted : ConnCallback → Prop
  | .resendChains _ _ _ => True
  | _ => False

/-- Every chain went out whole, and no event that resends one is scheduled. -/
structure ConnPair.Whole (p : ConnPair) : Prop where
  written : p.written = p.handed.flatten
  scheduled : ∀ e, e ∈ p.base.registered ∨ e ∈ p.base.active →
    ∃ callback, p.base.callbacks[e]? = some callback ∧ ¬ callback.Posted

/-- A head in the header loop: the loop began behind an accepted request line. -/
structure InHeaders (prev : Option Nat) (h : Head) : Prop where
  began : ∃ h₀ : Head, h₀.req.state = 0 ∧ h₀.buf.last - h₀.buf.pos < 2 ^ 31 ∧
    0 < (h₀.req.methodName.widen 1).len ∧ Reaches headerTurn (h₀.clearElements, none) (h, prev)

inductive ConnState.Sound : ConnState → Prop where
  | idle {p : ConnPair} (hWhole : p.Whole) : ConnState.Sound (.idle p)
  | requestLine {h : Head} {p : ConnPair} (hWhole : p.Whole) (hState : h.req.state = 0)
      (hSize : h.buf.last - h.buf.pos < 2 ^ 31) : ConnState.Sound (.parsing .requestLine h p)
  | headers {prev : Option Nat} {h : Head} {p : ConnPair} (hWhole : p.Whole) (hHead : InHeaders prev h) :
      ConnState.Sound (.parsing (.headers prev) h p)

theorem ConnPair.Whole.inOrder {p : ConnPair} (h : p.Whole) : p.InOrder :=
  ⟨h.written ▸ List.prefix_refl _, fun hNe => absurd h.written hNe⟩

theorem ConnState.Sound.inOrder {s : ConnState} (h : s.Sound) : s.InOrder := by
  cases h with
  | idle hWhole => exact hWhole.inOrder
  | requestLine hWhole => exact hWhole.inOrder
  | headers hWhole => exact hWhole.inOrder

/-- A posted event is registered nowhere, and the event of the pair gets another callback. -/
theorem ConnPair.Whole.passes {p p' : ConnPair} {w : List UInt8} (h : p.Whole) (hPasses : p.Passes w p') :
    p'.Whole := by
  obtain ⟨posted, hBase⟩ := hPasses.base
  refine ⟨?_, fun e he => ?_⟩
  · rw [hPasses.written, hPasses.handed, h.written, List.flatten_append, List.flatten_singleton]
  · rw [hBase] at he ⊢
    obtain ⟨callback, hCallback, hOther⟩ := h.scheduled e he
    have hIn := (List.getElem?_eq_some_iff.mp hCallback).1
    simp only [ConnEvents.ltIoMod, List.getElem?_set, List.length_append, List.getElem?_append_left hIn, hCallback]
    split_ifs with hSame hOut
    · exact ⟨_, rfl, id⟩
    · omega
    · exact ⟨callback, rfl, hOther⟩

section Turn

variable {writev : Nat → List UInt8 → WritevOutcome} {junk : Nat → Nat → LtChain} {h : Head} {p : ConnPair}

/-- A request line begins the header loop, or ends the call. -/
theorem connStep_requestLine (hWhole : p.Whole) (hState : h.req.state = 0)
    (hSize : h.buf.last - h.buf.pos < 2 ^ 31) :
    ∃ s, connStep writev junk (.parsing .requestLine h p) .turn = some s ∧ s.Sound := by
  generalize hCall : ngxHttpParseRequestLine h.mem h.req h.buf = call
  obtain ⟨rv, r, b⟩ := call
  by_cases hLok : rv = .lok
  · subst hLok
    obtain ⟨hPos, -, hBuf⟩ := ngxHttpParseRequestLine_pos_le hState hCall
    refine ⟨.parsing (.headers none) ({ h with req := httpRequestLineParsed r b, buf := b } : Head).clearElements p,
      by simp only [connStep, requestTurn_accepted _ hCall], .headers hWhole ⟨?_⟩⟩
    refine ⟨{ h with req := httpRequestLineParsed r b, buf := b }, ?_, ?_, ?_, .refl _⟩
    · exact (httpRequestLineParsed_state r b).trans (ngxHttpParseRequestLine_state hCall)
    · have hLast : b.last = h.buf.last := by rw [hBuf]
      simp only [hLast]
      omega
    · obtain ⟨t, rest, q, hUnread, hReads, rfl, rfl⟩ := requestLineText_of_lok hState hCall
      have hLength := congrArg List.length hUnread
      rw [LtBuffer.unread, length_slice, List.length_append] at hLength
      have hStored := httpRequestLineParsed_stored { h.buf with pos := h.buf.pos + t.bytes.length } hReads
        (by omega)
      exact hStored.method_pos (by omega)
  · exact ⟨.idle p, by simp only [connStep, requestTurn, hCall, if_neg hLok], .idle hWhole⟩

/-- A turn of the header loop goes on, or sends the chain of a finished request. -/
theorem connStep_headers {prev : Option Nat} (hWhole : p.Whole) (hHead : InHeaders prev h)
    (hTakes : TakesWhole writev junk (.parsing (.headers prev) h p) .turn) :
    ∃ s, connStep writev junk (.parsing (.headers prev) h p) .turn = some s ∧ s.Sound := by
  obtain ⟨h₀, hState, hSize, hMethod, hReach⟩ := hHead.began
  cases hTurn : headerTurn (h, prev) with
  | again t =>
      refine ⟨.parsing (.headers t.2) t.1 p, by simp only [connStep, requestTurn, hTurn],
        .headers hWhole ⟨h₀, hState, hSize, hMethod, ?_⟩⟩
      exact hReach.trans (.head hTurn (.refl _))
  | exit h' =>
      obtain ⟨blk, rest, hUnread, hRead⟩ := headersRead_of_returns hState hSize
        (hReach.returns (returns_of_exit hTurn))
      obtain ⟨chains, hConstruct, -, hVec⟩ := hRead.list.built (junk p.handed.length)
      obtain ⟨hWrote, hBound, res, hReturns⟩ := hTakes h' 0 chains _ _ hTurn hConstruct hVec
      rw [length_requestIovecs] at hReturns
      have hName : h'.req.methodName = h₀.req.methodName := by
        have hSame := congrArg RequestT.methodName hRead.req
        exact hSame
      have hNe := iovBytes_requestIovecs_ne h'.mem (lineElements h₀.buf.pos blk.lines) (hName ▸ hMethod)
      generalize hBytes : iovBytes h'.mem (requestIovecs h'.req (lineElements h₀.buf.pos blk.lines)) = w
        at hNe hWrote hBound
      obtain ⟨p', hSend, hPasses, -⟩ := sendRequest_returns hRead.list hBytes hNe hBound hReturns hWrote
      refine ⟨.parsing .requestLine h' p', by simp only [connStep, requestTurn, hTurn, hSend],
        .requestLine (hWhole.passes hPasses) hRead.state ?_⟩
      have hLength := congrArg List.length hUnread
      rw [hRead.buf]
      simp only
      omega

end Turn

section Run

variable (writev : Nat → List UInt8 → WritevOutcome) (junk : Nat → Nat → LtChain)

/-- An event that is called, which is active no longer. -/
theorem ConnPair.Whole.erase {p : ConnPair} (h : p.Whole) (e : Nat) :
    ConnPair.Whole { p with base := { p.base with active := p.base.active.erase e } } :=
  ⟨h.written, fun d hd => h.scheduled d (hd.imp_right List.mem_of_mem_erase)⟩

theorem ConnPair.Whole.call {p : ConnPair} (hWhole : p.Whole) {callback : ConnCallback}
    (hPosted : ¬ callback.Posted) (found : Found) :
    (callback.call writev found p).Sound := by
  cases callback with
  | httpDataComing =>
      simp only [ConnCallback.call]
      split_ifs
      · have hSize := found.batch.size
        exact .requestLine hWhole found.batch.state (by omega)
      · exact .idle hWhole
  | proxyConnectWritable =>
      simp only [ConnCallback.call]
      split_ifs
      · exact .idle ⟨hWhole.written, hWhole.scheduled⟩
      · exact .idle hWhole
  | proxyDataComing => exact .idle ⟨hWhole.written, hWhole.scheduled⟩
  | resendChains => exact absurd trivial hPosted

theorem ConnState.Sound.step {s s' : ConnState} {a : ConnAction} (h : s.Sound)
    (hTakes : TakesWhole writev junk s a) (hStep : connStep writev junk s a = some s') : s'.Sound := by
  cases h with
  | @idle p hWhole =>
      cases a with
      | report e =>
          simp only [connStep] at hStep
          split_ifs at hStep with hRegistered
          cases hStep
          refine .idle ⟨hWhole.written, fun d hd => hWhole.scheduled d ?_⟩
          rcases hd with hOld | hActive
          · exact Or.inl hOld
          · refine (List.mem_append.mp hActive).elim Or.inr fun hNew => Or.inl ?_
            rwa [List.mem_singleton.mp hNew]
      | call e found =>
          simp only [connStep] at hStep
          split_ifs at hStep with hActive
          obtain ⟨callback, hCallback, rfl⟩ := Option.map_eq_some_iff.mp hStep
          obtain ⟨_, hSame, hOther⟩ := hWhole.scheduled e (Or.inr hActive)
          obtain rfl := Option.some.inj (hSame.symm.trans hCallback)
          exact (hWhole.erase e).call writev hOther found
      | turn => exact nomatch hStep
  | requestLine hWhole hState hSize =>
      cases a with
      | turn =>
          obtain ⟨t, hTurn, hSound⟩ := connStep_requestLine hWhole hState hSize
          rw [hTurn] at hStep
          cases hStep
          exact hSound
      | report => exact nomatch hStep
      | call => exact nomatch hStep
  | headers hWhole hHead =>
      cases a with
      | turn =>
          obtain ⟨t, hTurn, hSound⟩ := connStep_headers hWhole hHead hTakes
          rw [hTurn] at hStep
          cases hStep
          exact hSound
      | report => exact nomatch hStep
      | call => exact nomatch hStep

theorem whole_httpInitConnection : httpInitConnection.Whole := by
  refine ⟨rfl, fun e he => ?_⟩
  have hEvent : e = 0 ∨ e = 1 := by simpa [httpInitConnection] using he
  rcases hEvent with rfl | rfl
  · exact ⟨_, rfl, id⟩
  · exact ⟨_, rfl, id⟩

/-- In a run whose writes are whole and whose calls come back, the upstream socket has
taken the chains of the requests in order, and no step is undefined. A call that frees
the chain pool twice does not come back, and is an undefined step where it is made. -/
theorem inOrder_of_run {s : ConnState}
    (h : Leads (connStep writev junk) (TakesWhole writev junk) (.idle httpInitConnection) s) : s.InOrder :=
  (h.all (I := ConnState.Sound) (.idle whole_httpInitConnection) fun _ _ _ hTakes hSound =>
    hTakes.step writev junk hSound).inOrder

end Run

section Requests

variable {writev : Nat → List UInt8 → WritevOutcome} {junk : Nat → Nat → LtChain}
  {guard : ConnState → ConnAction → Prop} {start : ConnState} {h h' : Head} {p p' : ConnPair}

/-- The turns of the header loop are steps of a run, up to the sending of the request. -/
theorem leads_of_headers {prev : Option Nat}
    (hRun : Leads (connStep writev junk) guard start (.parsing (.headers prev) h p))
    (hReturns : Returns headerTurn (h, prev) h') (hSend : sendRequest writev junk h' p = some p')
    (hGuard : ∀ prev g, (∀ g', headerTurn (g, prev) = .exit g' → g' = h') →
      guard (.parsing (.headers prev) g p) .turn) :
    Leads (connStep writev junk) guard start (.parsing .requestLine h' p') := by
  obtain ⟨n, hn⟩ := hReturns
  induction n generalizing h prev with
  | zero => cases hn
  | succ n ih =>
      rw [iterate] at hn
      cases hTurn : headerTurn (h, prev) with
      | again t =>
          rw [hTurn] at hn
          have hHere := hGuard prev h fun g' hExit => by
            rw [hTurn] at hExit
            cases hExit
          exact ih (.next .turn hRun hHere (by simp only [connStep, requestTurn, hTurn])) hn
      | exit g =>
          rw [hTurn] at hn
          cases hn
          have hHere := hGuard prev h fun g' hExit => by
            rw [hTurn] at hExit
            exact (Turn.exit.inj hExit).symm
          exact .next .turn hRun hHere (by simp only [connStep, requestTurn, hTurn, hSend])

/-- A request that is accepted and sent is a row of steps. -/
theorem leads_of_accepts (hRun : Leads (connStep writev junk) guard start (.parsing .requestLine h p))
    (hAccepts : AcceptsRequest h h') (hSend : sendRequest writev junk h' p = some p')
    (hLine : guard (.parsing .requestLine h p) .turn)
    (hGuard : ∀ prev g, (∀ g', headerTurn (g, prev) = .exit g' → g' = h') →
      guard (.parsing (.headers prev) g p) .turn) :
    Leads (connStep writev junk) guard start (.parsing .requestLine h' p') := by
  obtain ⟨r, b, hCall, hReturns⟩ := hAccepts
  exact leads_of_headers (.next .turn hRun hLine (by simp only [connStep, requestTurn_accepted _ hCall])) hReturns
    hSend hGuard

end Requests

/-- A chain that `writev` refuses is left to an event that is not scheduled. -/
theorem sendRequest_refused {writev : Nat → List UInt8 → WritevOutcome} {junk : Nat → Nat → LtChain} {h : Head}
    {p : ConnPair} {first : Nat} {chains : Arena LtChain} {bufs : List Iovec} {last : Option Nat}
    (hConstruct : httpConstructRequestChains h ⟨[], junk p.handed.length⟩ = some (first, chains))
    (hVec : outVec chains first = some (bufs, last)) (hOut : writev p.calls (iovBytes h.mem bufs) = .eagain) :
    ∃ p' posted, sendRequest writev junk h p = some p' ∧ p'.written = p.written ∧
      p'.handed = p.handed ++ [iovBytes h.mem bufs] ∧
      p'.base = (p.base.ltNewPostCallback posted).ltIoMod p.proxyEv .proxyDataComing := by
  have hSend : sendOutChain chains first .eagain =
      some (.lagain, chains.reveal (poolBlocks chains.fresh), last) := by
    rw [sendOutChain, sendPooled_eagain hVec]
    rfl
  refine ⟨_, _, by simp only [sendRequest, hConstruct, Option.bind_some, hVec, httpSendToUpstream, hOut, hSend,
    Option.map_some]; rfl, ?_, rfl, rfl⟩
  exact List.append_nil _

/-- The batch of the request `GET / HTTP/1.1`. -/
def getBatch : Batch := ⟨.received getRequest.bytes, rfl, by decide⟩

/-- The pair behind the first event of a run, the client's. -/
theorem getBatch_leads (writev : Nat → List UInt8 → WritevOutcome) (junk : Nat → Nat → LtChain)
    (guard : ConnState → ConnAction → Prop) (hGuard : ∀ p a, guard (.idle p) a) :
    Leads (connStep writev junk) guard (.idle httpInitConnection)
      (.parsing .requestLine getBatch.head httpInitConnection) := by
  have hReport : Leads (connStep writev junk) guard (.idle httpInitConnection)
      (.idle { httpInitConnection with base := { httpInitConnection.base with active := [0] } }) :=
    .next (.report 0) .start (hGuard _ _) rfl
  exact .next (.call 0 ⟨getBatch, true, 0⟩) hReport (hGuard _ _) rfl

theorem getBatch_unread : getBatch.head.buf.unread getBatch.head.mem = getRequest.text.bytes ++ [] := by
  rw [getRequest.text_bytes, List.append_nil]
  exact Head.received_unread _

/-- The request is read, sent, and followed by nothing. -/
theorem inOrder_of_run_getBatch :
    ∃ p, Leads (connStep takesEveryByte nullChains) (TakesWhole takesEveryByte nullChains) (.idle httpInitConnection)
        (.idle p) ∧ p.handed = [getRequest.lowered.bytes] ∧ (ConnState.idle p).InOrder := by
  obtain ⟨h', hAccepts, hReady, hRest, -, base, fields, hList, hHeaders, hBytes⟩ :=
    (ready_of_zeroed rfl).request getRequest.text getBatch_unread (by decide)
  have hBound : getRequest.text.sent.length < 2 ^ 31 :=
    getRequest.text.sent_length.trans_lt (by rw [getRequest.text_bytes]; decide)
  have hReturns : ChainReturns (nullChains 0) (2 * fields.length + 3) .lok := by
    rw [hHeaders, getRequest.text_headers]
    exact (chainReturns_null rfl .lok).mpr ⟨rfl, by decide⟩
  obtain ⟨p, hSend, hPasses, -⟩ := sendRequest_returns (p := httpInitConnection) hList hBytes
    getRequest.text.sent_ne_nil hBound hReturns (takesEveryByte_eq 0 _)
  have hSent := leads_of_accepts (getBatch_leads takesEveryByte nullChains (TakesWhole takesEveryByte nullChains)
    fun _ _ => trivial) hAccepts hSend trivial fun prev g hOnly => by
      intro g' first chains bufs last hExit hConstruct hVec
      obtain rfl := hOnly g' hExit
      obtain ⟨chains', hConstruct', -, hVec'⟩ := hList.built (nullChains 0)
      obtain ⟨rfl, rfl⟩ := Prod.mk.inj (Option.some.inj (hConstruct'.symm.trans hConstruct))
      obtain ⟨rfl, -⟩ := Prod.mk.inj (Option.some.inj (hVec'.symm.trans hVec))
      rw [hBytes, length_requestIovecs]
      exact ⟨rfl, hBound, .lok, hReturns⟩
  obtain ⟨h'', hEnd⟩ := requestTurn_nil (sendRequest takesEveryByte nullChains) p hReady.state hRest
  have hRun := hSent.next .turn trivial (show _ = some (.idle p) by simp only [connStep, hEnd])
  exact ⟨p, hRun, by rw [hPasses.handed, getRequest.text_sent]; rfl, inOrder_of_run takesEveryByte nullChains hRun⟩

/-- The socket of the upstream is not yet connected, and `writev` fails with `EAGAIN`. -/
theorem not_inOrder_of_run :
    ¬ ∀ (writev : Nat → List UInt8 → WritevOutcome) (junk : Nat → Nat → LtChain) (s : ConnState),
      (∀ n w, w ≠ [] → writev n w = .eagain ∨ ∃ k, 1 ≤ k ∧ k ≤ w.length ∧ writev n w = .wrote k) →
      Leads (connStep writev junk) (fun _ _ => True) (.idle httpInitConnection) s → s.InOrder := by
  intro hClaim
  obtain ⟨h', hAccepts, -, -, -, base, fields, hList, -, hBytes⟩ :=
    (ready_of_zeroed rfl).request getRequest.text getBatch_unread (by decide)
  obtain ⟨chains, hConstruct, -, hVec⟩ := hList.built (nullChains 0)
  obtain ⟨p, posted, hSend, hWritten, hHanded, hBase⟩ := @sendRequest_refused (fun _ _ => .eagain) nullChains h'
    httpInitConnection _ _ _ _ hConstruct hVec rfl
  have hRun := leads_of_accepts (getBatch_leads _ nullChains (fun _ _ => True) fun _ _ => trivial) hAccepts hSend
    trivial fun _ _ _ => trivial
  rw [hBytes] at hHanded
  obtain ⟨-, hRest⟩ : p.InOrder := hClaim _ _ _ (fun _ _ _ => Or.inl rfl) hRun
  obtain ⟨callback, ⟨e, hScheduled, hCallback⟩, hResends⟩ := hRest (by
    rw [hWritten, hHanded]
    intro hSame
    exact getRequest.text.sent_ne_nil (by simpa [httpInitConnection] using hSame.symm))
  obtain ⟨g, stale, outChain, vec, rfl, -⟩ := hResends
  rw [hBase] at hScheduled hCallback
  -- the two registered events have other callbacks
  have hEvent : e = 0 ∨ e = 1 := by
    simpa [httpInitConnection, ConnEvents.ltIoMod, ConnEvents.ltNewPostCallback] using hScheduled
  rcases hEvent with rfl | rfl
  · exact nomatch hCallback
  · exact nomatch hCallback

end Leactor
