import Leactor.Http.Exchange
import Leactor.Http.ResponseStream

/-! Keep-alive: a client and its upstream take turns, and after any number of rounds the
one socket has taken all requests and the other one all responses, in order. -/
namespace Leactor

open Loop Run Memory

/-- A wake-up of the client's socket brings whole requests, into a block that holds no
leftovers of another request. -/
structure ClientWakeUp.Asks (u : ClientWakeUp) (reqs : List RequestText) : Prop where
  nonempty : reqs ≠ []
  batch : u.batch = reqs.flatMap RequestText.bytes
  small : u.batch.length ≤ defaultBufSize
  unmarked : ¬ u.req.UriMarked
  upstream : u.req.upstream = 0

/-- A round: the requests of the client, wake-up by wake-up, and the head, the body and the
wake-ups of the response. -/
structure ServiceRound where
  asks : List (ClientWakeUp × List RequestText)
  head : ResponseHead
  body : List UInt8
  wakes : List ProxyWakeUp

namespace ServiceRound

def actions (r : ServiceRound) : List PairAction :=
  r.asks.map (fun x => .request x.1) ++ r.wakes.map .response

def up (r : ServiceRound) : List UInt8 := r.asks.flatMap fun x => x.2.flatMap RequestText.sent

def down (r : ServiceRound) : List UInt8 := r.head.lowerBytes ++ r.body

/-- The client asks for something, and the upstream answers with a response that is cut in
place, which the client's socket accepts. -/
structure Served (r : ServiceRound) : Prop where
  asked : r.asks ≠ []
  asks : ∀ x ∈ r.asks, x.1.Asks x.2
  bytes : r.wakes.flatMap (·.batch) = r.head.bytes ++ r.body
  takes : ∀ u ∈ r.wakes, u.TakesEverything
  cut : CutInPlace r.head r.wakes

/-- Every chain for the upstream fits one chain pool. -/
def OnePool (r : ServiceRound) : Prop := ∀ x ∈ r.asks, ∀ y ∈ x.2, y.OnePool

end ServiceRound

section Requests

variable {writev : Nat → List UInt8 → WritevOutcome} {junk : Nat → Nat → LtChain} {c c' : ProxyConn}

theorem ConnPair.forwardedAll_status (p : ConnPair) {reqs : List RequestText} (hSome : reqs ≠ []) :
    (p.forwardedAll reqs).clientStatus = lConnectingAccepted ∧
      (p.forwardedAll reqs).proxyStatus = lProxyWaitingResponse := by
  induction reqs generalizing p with
  | nil => exact absurd rfl hSome
  | cons x reqs ih =>
      cases reqs with
      | nil => exact ⟨rfl, rfl⟩
      | cons y reqs => exact ih (p.forwarded x.sent) (List.cons_ne_nil y reqs)

/-- A request of `http_create_request` on a block without leftovers is ready. -/
theorem ClientWakeUp.Asks.ready {u : ClientWakeUp} {reqs : List RequestText} (h : u.Asks reqs) (s : RecvState) :
    Ready (u.head s) :=
  ⟨rfl, h.unmarked, h.upstream⟩

/-- The requests of a wake-up are forwarded, to the last one or to the first one whose call
does not come back. -/
theorem ClientWakeUp.Asks.pipeline {u : ClientWakeUp} {reqs : List RequestText} (h : u.Asks reqs) {rv : Int}
    {s : RecvState} (hRecv : u.Receives u.mem rv s) (hWritev : ∀ n w, w ≠ [] → writev n w = .wrote w.length)
    (junk : Nat → Nat → LtChain) (p : ConnPair) :
    (ChainsEnd junk p.handed.length reqs →
      ∃ h', Returns (requestTurn (sendRequest writev junk)) (.requestLine, u.head s, p)
        (some (.lagain, h', p.forwardedAll reqs))) ∧
    (¬ ChainsReturn junk p.handed.length reqs →
      Returns (requestTurn (sendRequest writev junk)) (.requestLine, u.head s, p) none) := by
  have hUnread : (u.head s).buf.unread (u.head s).mem = reqs.flatMap RequestText.bytes := by
    rw [← h.batch, ← List.take_of_length_le h.small]
    exact hRecv.unread
  have hLength := congrArg List.length hUnread
  have hSmall := h.small
  rw [h.batch] at hSmall
  rw [LtBuffer.unread, length_slice] at hLength
  unfold defaultBufSize at hSmall
  obtain ⟨hAll, hNone⟩ := (h.ready s).pipeline hWritev junk p hUnread (by omega)
  refine ⟨fun hEnds => ?_, hNone⟩
  obtain ⟨h', p', hReturns, -, hForwarded⟩ := hAll hEnds.returns
  exact ⟨h', hForwarded hEnds ▸ hReturns⟩

/-- A wake-up with whole requests passes all of them on. -/
theorem PairStep.asks {u : ClientWakeUp} {reqs : List RequestText} (hStep : PairStep writev junk c (.request u) c')
    (hAsks : u.Asks reqs) (hLinks : ∀ n m, (junk n m).next = none)
    (hWritev : ∀ n w, w ≠ [] → writev n w = .wrote w.length) (hStatus : c.pair.clientStatus = lConnectingAccepted) :
    c'.pair = c.pair.forwardedAll reqs ∧ c'.sent = c.sent := by
  cases hStep with
  | request hCall =>
      cases hCall with
      | ignored hNot => exact absurd hStatus hNot
      | @parsed rv s res h' t _ hRecv hLine =>
          obtain ⟨p, hReturns, rfl⟩ := requestTurn_simulates (sendRequest writev junk)
            (R := fun (t : Handing) p => t.pair = p) (fun g t p t' hRel hSend => by
              obtain ⟨p', hCall, rfl⟩ := Option.map_eq_some_iff.mp hSend
              exact ⟨p', hRel ▸ hCall, rfl⟩) hLine (v := c.pair) rfl
          obtain ⟨hEnds, hNone⟩ := hAsks.pipeline hRecv hWritev junk c.pair
          by_cases hCalls : ChainsReturn junk c.pair.handed.length reqs
          · obtain ⟨h'', hAll⟩ := hEnds (hCalls.ends hLinks)
            cases hReturns.unique hAll
            exact ⟨rfl, rfl⟩
          · cases hReturns.unique (hNone hCalls)

end Requests

section Responses

variable {u : ProxyWakeUp} {us us' : List ProxyWakeUp} {w w' : List UInt8} {c c' : ProxyConn}

variable {writev : Nat → List UInt8 → WritevOutcome} {junk : Nat → Nat → LtChain} {P Q R : Int → Prop}

/-- Wake-ups of the upstream's socket come back from a status with `P` on, pass on the bytes
`w`, and leave a status with `Q`. -/
def PassesOn (writev : Nat → List UInt8 → WritevOutcome) (junk : Nat → Nat → LtChain) (P : Int → Prop)
    (us : List ProxyWakeUp) (w : List UInt8) (Q : Int → Prop) : Prop :=
  ∀ c, P c.status → Proceeds (PairStep writev junk) c (us.map .response) ∧
    ∀ c', Trail (PairStep writev junk) (fun _ _ => True) c (us.map .response) c' →
      c'.sent = c.sent ++ w ∧ c'.pair = { c.pair with proxyStatus := c'.status } ∧ Q c'.status

theorem passesOn_nil (P : Int → Prop) : PassesOn writev junk P [] [] P := by
  refine fun c hStatus => ⟨trivial, fun c' hTrail => ?_⟩
  cases hTrail
  exact ⟨(List.append_nil _).symm, rfl, hStatus⟩

theorem PassesOn.cons (hRest : PassesOn writev junk Q us w' R) (hFirst : ∀ c, P c.status → Advances u c w Q) :
    PassesOn writev junk P (u :: us) (w ++ w') R := by
  intro c hStatus
  have hNext : ∀ c', PairStep writev junk c (.response u) c' →
      c'.sent = c.sent ++ w ∧ c'.pair = { c.pair with proxyStatus := c'.status } ∧ Q c'.status := by
    intro c' hStep
    cases hStep with
    | @response _ mem _ _ hCall =>
        obtain ⟨hSent, hNext⟩ := (hFirst { c with mem := mem } hStatus).2 _ _ hCall
        exact ⟨hSent, hCall.pair_eq, hNext⟩
  obtain ⟨handling, c₁, hCall⟩ := (hFirst c hStatus).1
  refine ⟨⟨⟨c₁, .response hCall⟩, fun c' hStep => (hRest c' (hNext c' hStep).2.2).1⟩, fun c'' hTrail => ?_⟩
  cases hTrail with
  | @cons _ c' _ _ _ _ hStep hTrail' =>
      obtain ⟨hSent, hPair, hHere⟩ := hNext c' hStep
      obtain ⟨hSent', hPair', hLast⟩ := (hRest c' hHere).2 c'' hTrail'
      exact ⟨by rw [hSent', hSent, List.append_assoc], by rw [hPair', hPair], hLast⟩

theorem PassesOn.append (h : PassesOn writev junk P us w Q) (h' : PassesOn writev junk Q us' w' R) :
    PassesOn writev junk P (us ++ us') (w ++ w') R := by
  intro c hStatus
  obtain ⟨hFirst, hBytes⟩ := h c hStatus
  rw [List.map_append]
  refine ⟨hFirst.append fun c' hTrail => (h' c' (hBytes c' hTrail).2.2).1, fun c'' hTrail => ?_⟩
  obtain ⟨c', hHere, hLast⟩ := hTrail.split
  obtain ⟨hSent, hPair, hNext⟩ := hBytes c' hHere
  obtain ⟨hSent', hPair', hEnd⟩ := (h' c' hNext).2 c'' hLast
  exact ⟨by rw [hSent', hSent, List.append_assoc], by rw [hPair', hPair], hEnd⟩

theorem PassesOn.weaken (h : PassesOn writev junk P us w R) (hStatus : ∀ status, Q status → P status) :
    PassesOn writev junk Q us w R :=
  fun c hHere => h c (hStatus _ hHere)

/-- Wake-ups of one kind after another. -/
theorem passesOn_all {f : ProxyWakeUp → List UInt8} (h : ∀ u ∈ us, ∀ c, P c.status → Advances u c (f u) P) :
    PassesOn writev junk P us (us.flatMap f) P := by
  induction us with
  | nil => exact passesOn_nil P
  | cons u us ih =>
      rw [List.forall_mem_cons] at h
      rw [List.flatMap_cons]
      exact (ih h.2).cons h.1

/-- A response that is cut in place is passed on, with its header names in lower case. -/
theorem passesOn_of_cutInPlace (x : ResponseHead) (body : List UInt8)
    (hBytes : us.flatMap (·.batch) = x.bytes ++ body) (hTakes : ∀ u ∈ us, u.TakesEverything)
    (hCut : CutInPlace x us) :
    PassesOn writev junk (· = lProxyWaitingResponse) us (x.lowerBytes ++ body) fun _ => True := by
  obtain ⟨waits, first, later, ends, rfl, hWaits, ⟨hHead, hLast⟩, hLater, hEnds⟩ := hCut
  rw [List.forall_mem_append, List.forall_mem_cons, List.forall_mem_append] at hTakes
  obtain ⟨-, hFirst, hRelays, -⟩ := hTakes
  obtain ⟨rest, hRest⟩ := hHead.whole
  have hNone : ∀ vs : List ProxyWakeUp, vs.flatMap (fun _ => ([] : List UInt8)) = [] := fun vs =>
    List.flatMap_eq_nil_iff.mpr fun _ _ => rfl
  have hBody : [] ++ (x.lowerBytes ++ rest ++ (later.flatMap (·.batch) ++ [])) = x.lowerBytes ++ body := by
    rw [List.flatMap_append, flatMap_batch_nil fun u hu => (hWaits u hu).1, List.nil_append, List.flatMap_cons,
      ← hRest, List.append_assoc, List.flatMap_append, flatMap_batch_nil hEnds] at hBytes
    rw [List.nil_append, List.append_assoc, ← List.append_cancel_left hBytes]
  rw [← hBody]
  have hBefore : PassesOn writev junk (· = lProxyWaitingResponse) waits (waits.flatMap fun _ => [])
      (· = lProxyWaitingResponse) :=
    passesOn_all fun u hu c _ => ProxyWakeUp.waits_advances (hWaits u hu).1 (hWaits u hu).2 c
  have hBehind : PassesOn writev junk (· = lHttpWroteResponseHeader) later (later.flatMap (·.batch))
      (· = lHttpWroteResponseHeader) :=
    passesOn_all fun u hu c hWrote =>
      ProxyWakeUp.body_advances (hRelays u hu) (hLater u hu).1 (hLater u hu).2.1 (hLater u hu).2.2 hWrote
  have hAtEnd : PassesOn writev junk (fun _ => True) ends (ends.flatMap fun _ => []) fun _ => True :=
    passesOn_all fun u hu c _ => ProxyWakeUp.ends_advances (hEnds u hu) c
  rw [hNone] at hBefore hAtEnd
  exact hBefore.append ((hBehind.append (hAtEnd.weaken fun _ _ => trivial)).cons fun c hWaits =>
    hHead.head_advances hFirst hLast hWaits hRest.symm)

end Responses

section Rounds

variable {writev : Nat → List UInt8 → WritevOutcome} {junk : Nat → Nat → LtChain} {c c' : ProxyConn}

/-- What rounds leave behind, from an accepted connection on. -/
structure Exchanged (c c' : ProxyConn) (up down : List UInt8) : Prop where
  accepted : c'.pair.clientStatus = lConnectingAccepted
  written : c'.pair.written = c.pair.written ++ up
  sent : c'.sent = c.sent ++ down

theorem Exchanged.trans {c'' : ProxyConn} {up up' down down' : List UInt8} (h : Exchanged c c' up down)
    (h' : Exchanged c' c'' up' down') : Exchanged c c'' (up ++ up') (down ++ down') where
  accepted := h'.accepted
  written := by rw [h'.written, h.written, List.append_assoc]
  sent := by rw [h'.sent, h.sent, List.append_assoc]

/-- Wake-ups with requests, one after another. The first one makes the pair wait for a
response, and those behind it leave it waiting. -/
theorem exchanged_asks {asks : List (ClientWakeUp × List RequestText)} (hAsks : ∀ x ∈ asks, x.1.Asks x.2)
    (hSome : asks ≠ []) (hLinks : ∀ n m, (junk n m).next = none) (hWritev : ∀ n w, w ≠ [] → writev n w = .wrote w.length)
    (hStatus : c.pair.clientStatus = lConnectingAccepted)
    (hTrail : Trail (PairStep writev junk) (fun _ _ => True) c (asks.map fun x => .request x.1) c') :
    Exchanged c c' (asks.flatMap fun x => x.2.flatMap RequestText.sent) [] ∧ c'.status = lProxyWaitingResponse := by
  induction asks generalizing c with
  | nil => exact absurd rfl hSome
  | cons x asks ih =>
      rw [List.forall_mem_cons] at hAsks
      cases hTrail with
      | @cons _ c₁ _ _ _ _ hStep hRest =>
          obtain ⟨hPair, hSent⟩ := hStep.asks hAsks.1 hLinks hWritev hStatus
          obtain ⟨hAccepted, hWaits⟩ := c.pair.forwardedAll_status hAsks.1.nonempty
          obtain ⟨-, hWritten, -⟩ := c.pair.forwardedAll_counts x.2
          rw [← hPair] at hAccepted hWaits hWritten
          have hFirst : Exchanged c c₁ (x.2.flatMap RequestText.sent) [] :=
            ⟨hAccepted, hWritten, by rw [hSent, List.append_nil]⟩
          cases asks with
          | nil =>
              cases hRest
              rw [List.flatMap_singleton]
              exact ⟨hFirst, hWaits⟩
          | cons y asks =>
              obtain ⟨hLater, hEnd⟩ := ih hAsks.2 (List.cons_ne_nil y asks) hAccepted hRest
              rw [List.flatMap_cons]
              exact ⟨hFirst.trans hLater, hEnd⟩

/-- A round passes its requests on, and then its response. -/
theorem ServiceRound.Served.exchanged {r : ServiceRound} (h : r.Served) (hLinks : ∀ n m, (junk n m).next = none)
    (hWritev : ∀ n w, w ≠ [] → writev n w = .wrote w.length) (hStatus : c.pair.clientStatus = lConnectingAccepted)
    (hTrail : Trail (PairStep writev junk) (fun _ _ => True) c r.actions c') : Exchanged c c' r.up r.down := by
  obtain ⟨c₁, hAsked, hAnswered⟩ := hTrail.split
  obtain ⟨hFirst, hWaits⟩ := exchanged_asks h.asks h.asked hLinks hWritev hStatus hAsked
  obtain ⟨hSent, hPair, -⟩ := (passesOn_of_cutInPlace r.head r.body h.bytes h.takes h.cut c₁ hWaits).2 c' hAnswered
  have hSecond : Exchanged c₁ c' [] r.down := by
    refine ⟨?_, ?_, hSent⟩
    · rw [hPair]
      exact hFirst.accepted
    · rw [hPair, List.append_nil]
  have hBoth := hFirst.trans hSecond
  rwa [List.append_nil, List.nil_append] at hBoth

/-- Rounds one after another pass on all requests and all responses, in order. -/
theorem exchanged_rounds {rounds : List ServiceRound} (hServed : ∀ r ∈ rounds, r.Served)
    (hLinks : ∀ n m, (junk n m).next = none)
    (hWritev : ∀ n w, w ≠ [] → writev n w = .wrote w.length) (hStatus : c.pair.clientStatus = lConnectingAccepted)
    (hTrail : Trail (PairStep writev junk) (fun _ _ => True) c (rounds.flatMap ServiceRound.actions) c') :
    Exchanged c c' (rounds.flatMap ServiceRound.up) (rounds.flatMap ServiceRound.down) := by
  induction rounds generalizing c with
  | nil =>
      cases hTrail
      exact ⟨hStatus, (List.append_nil _).symm, (List.append_nil _).symm⟩
  | cons r rounds ih =>
      rw [List.forall_mem_cons] at hServed
      rw [List.flatMap_cons] at hTrail
      obtain ⟨c₁, hHere, hLater⟩ := hTrail.split
      have hFirst := hServed.1.exchanged hLinks hWritev hStatus hHere
      exact hFirst.trans (ih hServed.2 hFirst.accepted hLater)

/-- The upstream's socket may become writable before the first round. -/
theorem exchanged_writable {ready : List Bool} (hStatus : c.pair.clientStatus = lConnectingAccepted)
    (hTrail : Trail (PairStep writev junk) (fun _ _ => True) c (ready.map .writable) c') : Exchanged c c' [] [] := by
  induction ready generalizing c with
  | nil =>
      cases hTrail
      exact ⟨hStatus, (List.append_nil _).symm, (List.append_nil _).symm⟩
  | cons b ready ih =>
      cases hTrail with
      | cons _ hStep hRest =>
          cases hStep with
          | writable =>
              cases b with
              | false => exact ih hStatus hRest
              | true =>
                  have hSet : (c.setStatus lProxyConnected).pair.clientStatus = lConnectingAccepted := hStatus
                  obtain ⟨hAccepted, hWritten, hSent⟩ := ih hSet hRest
                  exact ⟨hAccepted, hWritten, hSent⟩

end Rounds

end Leactor
