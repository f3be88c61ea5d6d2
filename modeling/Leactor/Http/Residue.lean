import Leactor.Http.HeaderList
import Leactor.Net.Recv
import Leactor.Net.SendChains
import Leactor.Parse.RequestResidue
import Leactor.Parse.StatusResidue

/-! What an old request leaves in the parse of the next message: the same bytes are
parsed with two old contents of the request, and the results are compared. -/
namespace Leactor

open Ascii Scan Loop Memory

structure RequestValues where
  method : Nat
  httpVersion : Int
  uri : LtString
  complexUri : Int
  quotedUri : Int
  spaceInUri : Int

def RequestT.values (r : RequestT) : RequestValues :=
  ⟨r.method, r.httpVersion, r.uri, r.complexUri, r.quotedUri, r.spaceInUri⟩

/-- What the parser answers to a request line: its code, and the values of a line that it accepts. -/
def requestLineAnswer (mem : Mem) (r : RequestT) (b : LtBuffer) : Res × Option RequestValues :=
  let answer := ngxHttpParseRequestLine mem r b
  (answer.1, if answer.1 = .lok then some (httpRequestLineParsed answer.2.1 answer.2.2).values else none)

def Head.elementList (h : Head) : Option (List LtHttpHeaderElement) :=
  elementsOf h.elements h.req.elementTail h.elements.fresh h.req.elementHead

def Head.chainBytes (construct : Head → Arena LtChain → Option (Nat × Arena LtChain)) (chains : Arena LtChain)
    (h : Head) : Option (List UInt8) :=
  (construct h chains).bind fun built => (outVec built.2 built.1).map fun vec => iovBytes h.mem vec.1

/-- Of two heads both are accepted or none is, with the same header list and the
same bytes in their chains. -/
structure SameMessage (accepts : Head → Head → Prop)
    (construct : Head → Arena LtChain → Option (Nat × Arena LtChain)) (h h' : Head) : Prop where
  accepted : (∃ g, accepts h g) ↔ ∃ g, accepts h' g
  content : ∀ g g', accepts h g → accepts h' g' → g.elementList = g'.elementList ∧
    ∀ chains, g.chainBytes construct chains = g'.chainBytes construct chains

theorem SameMessage.symm {accepts : Head → Head → Prop}
    {construct : Head → Arena LtChain → Option (Nat × Arena LtChain)} {h h' : Head}
    (hSame : SameMessage accepts construct h h') : SameMessage accepts construct h' h where
  accepted := hSame.accepted.symm
  content g' g hAccepts' hAccepts :=
    let h := hSame.content g g' hAccepts hAccepts'
    ⟨h.1.symm, fun chains => (h.2 chains).symm⟩

/-- The bytes of `h` are parsed alike with two contents of the request. -/
structure ParsesAlike (h : Head) (r r' : RequestT) : Prop where
  requestLine : requestLineAnswer h.mem r h.buf = requestLineAnswer h.mem r' h.buf
  request : SameMessage AcceptsRequest httpConstructRequestChains { h with req := r } { h with req := r' }
  statusLine : statusLineAnswer h.mem r h.buf r.status = statusLineAnswer h.mem r' h.buf r'.status
  response : SameMessage AcceptsResponse constructResponseChains { h with req := r } { h with req := r' }

theorem ParsesAlike.symm {h : Head} {r r' : RequestT} (hSame : ParsesAlike h r r') : ParsesAlike h r' r where
  requestLine := hSame.requestLine.symm
  request := hSame.request.symm
  statusLine := hSame.statusLine.symm
  response := hSame.response.symm

def Head.Small (h : Head) : Prop := h.buf.last - h.buf.pos ≤ defaultBufSize

/-- The old contents that show in the parse of a message in one buffer. -/
structure SameResidue (r r' : RequestT) : Prop where
  line : SameLineResidue r r'
  status : StatusAlike defaultBufSize r.status r'.status

/-- Two heads that differ in their requests only, whose element lists are the same. -/
structure SameLoop (h g : Head) : Prop where
  buf : h.buf = g.buf
  mem : h.mem = g.mem
  elements : h.elements = g.elements
  head : h.req.elementHead = g.req.elementHead
  tail : h.req.elementTail = g.req.elementTail

theorem Skipped.same {u u' : Nat} {w : List UInt8} (h : u = 0 ↔ u' = 0) (hSkip : Skipped u w) : Skipped u' w := by
  induction hSkip with
  | nil => exact .nil
  | line hUpstream hLine _ ih => exact .line (mt h.mpr hUpstream) hLine ih

theorem ngxHttpParseHeaderLine_length {mem : Mem} {r r' : RequestT} {b b' : LtBuffer}
    (h : ngxHttpParseHeaderLine mem r b true = (.lok, r', b')) :
    r'.headerLength = wrap32 (ptrDiff r'.headerEnd r'.headerNameStart + 2) := by
  rw [ngxHttpParseHeaderLine] at h
  split at h
  · cases h
  · split at h <;> cases h
    rfl

section Turns

variable {h g : Head}

/-- A new element of the same name and value. -/
theorem Head.addElement_same (prev : Option Nat) (hSame : SameLoop h g)
    (hNameStart : h.req.headerNameStart = g.req.headerNameStart)
    (hNameEnd : h.req.headerNameEnd = g.req.headerNameEnd) (hStart : h.req.headerStart = g.req.headerStart)
    (hEnd : h.req.headerEnd = g.req.headerEnd) (hHash : h.req.headerHash = g.req.headerHash)
    (hLength : h.req.headerLength = g.req.headerLength) :
    SameLoop (h.addElement prev).1 (g.addElement prev).1 ∧ (h.addElement prev).2 = (g.addElement prev).2 := by
  obtain ⟨hBuf, hMem, hElements, hHead, hTail⟩ := hSame
  simp only [Head.addElement, httpProcessElement, hBuf, hMem, hElements, hHead, hNameStart, hNameEnd, hStart, hEnd,
    hHash, hLength]
  exact ⟨⟨rfl, rfl, rfl, rfl, rfl⟩, trivial⟩

/-- The turn over a line, with two contents of the request. Both turns append the same
element, or none. -/
theorem headerTurn_same {prev : Option Nat} {skip rest : List UInt8} {l : HeaderText} (hSame : SameLoop h g)
    (hState : h.req.state = 0) (hState' : g.req.state = 0) (hUpstream : h.req.upstream = 0 ↔ g.req.upstream = 0)
    (hUnread : h.buf.unread h.mem = skip ++ (l.bytes ++ rest)) (hSkip : Skipped h.req.upstream skip)
    (hReply : h.req.upstream ≠ 0 → ¬ l.StartsReply) :
    ∃ h' g' prev', headerTurn (h, prev) = .again (h', prev') ∧ headerTurn (g, prev) = .again (g', prev') ∧
      SameLoop h' g' := by
  have hUnread' : g.buf.unread g.mem = skip ++ (l.bytes ++ rest) := by rw [← hSame.buf, ← hSame.mem, hUnread]
  obtain ⟨r, hParse, hReads⟩ := ngxHttpParseHeaderLine_line l hState hUnread hSkip hReply
  obtain ⟨r', hParse', hReads'⟩ := ngxHttpParseHeaderLine_line l hState' hUnread' (hSkip.same hUpstream)
    fun hNe => hReply (mt hUpstream.mp hNe)
  have hFrame : ∀ {α : Type} (f : RequestT → α), (∀ r : RequestT, f r.forgetHeader = f r) →
      f r = f h.req ∧ f r' = f g.req := fun f hf =>
    ⟨by rw [← hf r, hReads.frame, hf], by rw [← hf r', hReads'.frame, hf]⟩
  obtain ⟨hHead, hHead'⟩ := hFrame RequestT.elementHead fun _ => rfl
  obtain ⟨hTail, hTail'⟩ := hFrame RequestT.elementTail fun _ => rfl
  simp only [headerTurn, hParse, hParse']
  by_cases hValid : l.Valid
  · rw [if_neg (not_not.mpr (hReads.invalid.mpr hValid)), if_neg (not_not.mpr (hReads'.invalid.mpr hValid))]
    have hLength := ngxHttpParseHeaderLine_length hParse
    have hLength' := ngxHttpParseHeaderLine_length hParse'
    rw [hReads.valueEnd, hReads.nameStart] at hLength
    rw [hReads'.valueEnd, hReads'.nameStart, ← hSame.buf] at hLength'
    obtain ⟨hAdded, hPrev⟩ := Head.addElement_same prev
      (h := { h with
        req := { r with requestLength := wrap32 (r.requestLength +
          ptrDiff (h.buf.pos + skip.length + l.bytes.length) r.headerNameStart) }
        buf := { h.buf with pos := h.buf.pos + skip.length + l.bytes.length } })
      (g := { g with
        req := { r' with requestLength := wrap32 (r'.requestLength +
          ptrDiff (g.buf.pos + skip.length + l.bytes.length) r'.headerNameStart) }
        buf := { g.buf with pos := g.buf.pos + skip.length + l.bytes.length } })
      ⟨by rw [hSame.buf], hSame.mem, hSame.elements, (hHead.trans hSame.head).trans hHead'.symm,
        (hTail.trans hSame.tail).trans hTail'.symm⟩
      (hReads.nameStart.trans (by rw [hReads'.nameStart, hSame.buf]))
      (hReads.nameEnd.trans (by rw [hReads'.nameEnd, hSame.buf]))
      (hReads.valueStart.trans (by rw [hReads'.valueStart, hSame.buf]))
      (hReads.valueEnd.trans (by rw [hReads'.valueEnd, hSame.buf]))
      ((hReads.hash hValid).trans (hReads'.hash hValid).symm) (hLength.trans hLength'.symm)
    exact ⟨_, _, _, rfl, congrArg Turn.again (Prod.ext rfl hPrev.symm), hAdded⟩
  · rw [if_pos (mt hReads.invalid.mp hValid), if_pos (mt hReads'.invalid.mp hValid)]
    exact ⟨_, _, prev, rfl, rfl, by rw [hSame.buf], hSame.mem, hSame.elements,
      (hHead.trans hSame.head).trans hHead'.symm, (hTail.trans hSame.tail).trans hTail'.symm⟩

/-- The turn that leaves the loop, with two contents of the request. The lists behind it
are the same, and each request keeps what the loop does not write. -/
theorem headerTurn_exit_same {h' : Head} {prev : Option Nat} (hSame : SameLoop h g) (hState : h.req.state = 0)
    (hState' : g.req.state = 0) (hUpstream : h.req.upstream = 0 ↔ g.req.upstream = 0)
    (hTurn : headerTurn (h, prev) = .exit h') :
    ∃ g', headerTurn (g, prev) = .exit g' ∧ SameLoop h' g' ∧ g'.req.forgetHead = g.req.forgetHead := by
  rcases ngxHttpParseHeaderLine_cases h.mem (b := h.buf) hState with
    ⟨l, skip, rest, hUnread, hSkip, hReply⟩ | ⟨blank, skip, rest, hUnread, hSkip⟩ | hStall
  · obtain ⟨h₁, prev₁, hAgain, -⟩ := headerTurn_line prev l hState hUnread hSkip hReply
    rw [hAgain] at hTurn
    cases hTurn
  · have hUnread' : g.buf.unread g.mem = skip ++ (lineBreak blank ++ rest) := by
      rw [← hSame.buf, ← hSame.mem, hUnread]
    obtain ⟨r, hExit, hFrame, -⟩ := headerTurn_blank prev blank hState hUnread hSkip
    obtain ⟨r', hExit', hFrame', -⟩ := headerTurn_blank prev blank hState' hUnread' (hSkip.same hUpstream)
    rw [hExit] at hTurn
    cases hTurn
    refine ⟨_, hExit', ⟨by rw [hSame.buf], hSame.mem, hSame.elements, ?_, ?_⟩,
      RequestT.forgetHead_of_forgetHeader hFrame'⟩
    · have hHead := congrArg RequestT.elementHead hFrame
      have hHead' := congrArg RequestT.elementHead hFrame'
      exact hHead.trans (hSame.head.trans hHead'.symm)
    · have hTail := congrArg RequestT.elementTail hFrame
      have hTail' := congrArg RequestT.elementTail hFrame'
      exact hTail.trans (hSame.tail.trans hTail'.symm)
  · obtain ⟨r, b, hAgain, -⟩ := headerTurn_stalls prev hStall
    rw [hAgain] at hTurn
    cases hTurn

/-- The loops over one block, with two contents of the request, return together. -/
theorem headerLoop_same {h' : Head} (hSame : SameLoop h g) (hState : h.req.state = 0) (hState' : g.req.state = 0)
    (hUpstream : h.req.upstream = 0 ↔ g.req.upstream = 0) (hReturns : Returns headerTurn (h, none) h') :
    ∃ g', Returns headerTurn (g, none) g' ∧ SameLoop h' g' ∧ h'.req.forgetHead = h.req.forgetHead ∧
      g'.req.forgetHead = g.req.forgetHead := by
  obtain ⟨blk, hRead, rest, hRest⟩ := beginsWithBlock_of_terminates hState ⟨h', hReturns⟩
  obtain ⟨h'', hReturns', hFrame, g', hReturns'', hLoop, hFrame'⟩ := headerLoop_rule
    (I := fun _ x prev => x.req.state = 0 ∧ ∃ y, SameLoop x y ∧ y.req.state = 0 ∧
      (x.req.upstream = 0 ↔ y.req.upstream = 0) ∧ Reaches headerTurn (g, none) (y, prev) ∧
      y.req.forgetHead = g.req.forgetHead)
    (Q := fun x => ∃ y, Returns headerTurn (g, none) y ∧ SameLoop x y ∧ y.req.forgetHead = g.req.forgetHead)
    (by
      rintro x x' prev prev' skip rest l lines hs hu hSkip hReply hTurn hMoved ⟨-, y, hxy, hy, hUp, hReaches, hKept⟩
      obtain ⟨x'', y', prev'', hAgain, hAgain', hNext⟩ := headerTurn_same hxy hs hy hUp hu hSkip hReply
      rw [hAgain, Turn.again.injEq, Prod.mk.injEq] at hTurn
      obtain ⟨rfl, rfl⟩ := hTurn
      have hu' : y.buf.unread y.mem = skip ++ (l.bytes ++ rest) := by rw [← hxy.buf, ← hxy.mem, hu]
      obtain ⟨y'', prev₂, hTurn', hMoved'⟩ := headerTurn_line prev l hy hu' (hSkip.same hUp)
        fun hNe => hReply (mt hUp.mp hNe)
      rw [hAgain', Turn.again.injEq, Prod.mk.injEq] at hTurn'
      obtain ⟨rfl, rfl⟩ := hTurn'
      refine ⟨hMoved.state, y', hNext, hMoved'.state, ?_, hReaches.trans (.head hAgain' (.refl _)),
        hMoved'.req.trans hKept⟩
      rw [RequestT.upstream_of_forgetHead hMoved.req, RequestT.upstream_of_forgetHead hMoved'.req, hUp])
    (by
      rintro x prev r' pos hTurn hMoved ⟨hs, y, hxy, hy, hUp, hReaches, hKept⟩
      obtain ⟨y', hExit, hNext, hLast⟩ := headerTurn_exit_same hxy hs hy hUp hTurn
      exact ⟨y', hReaches.returns (returns_of_exit hExit), hNext, hLast.trans hKept⟩)
    none blk hState hRest.symm hRead ⟨hState, g, hSame, hState', hUpstream, .refl _, rfl⟩
  obtain rfl := hReturns.unique hReturns'
  exact ⟨g', hReturns'', hLoop, hFrame.req, hFrame'⟩

/-- The builder of a request's chain reads three slices and the list. -/
theorem SameLoop.requestChains (hSame : SameLoop h g) (hMethod : h.req.methodName = g.req.methodName)
    (hUri : h.req.uri = g.req.uri) (hProtocol : h.req.httpProtocol = g.req.httpProtocol) (chains : Arena LtChain) :
    httpConstructRequestChains h chains = httpConstructRequestChains g chains := by
  simp only [httpConstructRequestChains, hMethod, hUri, hProtocol, hSame.head, hSame.tail, hSame.elements]

/-- The builder of a response's chain reads the status line and the list. -/
theorem SameLoop.responseChains (hSame : SameLoop h g) (hLine : h.req.requestLine = g.req.requestLine)
    (chains : Arena LtChain) : constructResponseChains h chains = constructResponseChains g chains := by
  simp only [constructResponseChains, hLine, hSame.head, hSame.tail, hSame.elements]

theorem SameLoop.elementList (hSame : SameLoop h g) : h.elementList = g.elementList := by
  simp only [Head.elementList, hSame.elements, hSame.tail, hSame.head]

theorem SameLoop.chainBytes {construct : Head → Arena LtChain → Option (Nat × Arena LtChain)}
    (hSame : SameLoop h g) {chains : Arena LtChain} (hChains : construct h chains = construct g chains) :
    h.chainBytes construct chains = g.chainBytes construct chains := by
  simp only [Head.chainBytes, hChains, hSame.mem]

end Turns

/-- Two heads are the same message when every result of the one is matched by the other. -/
theorem sameMessage_of_twins {accepts : Head → Head → Prop}
    {construct : Head → Arena LtChain → Option (Nat × Arena LtChain)} {h h' : Head}
    (hUnique : ∀ {g g'}, accepts h' g → accepts h' g' → g = g')
    (hTwin : ∀ g, accepts h g → ∃ g', accepts h' g' ∧ SameLoop g g' ∧
      ∀ chains, construct g chains = construct g' chains)
    (hBack : ∀ g', accepts h' g' → ∃ g, accepts h g) : SameMessage accepts construct h h' where
  accepted := by
    constructor
    · rintro ⟨g, hAccepts⟩
      obtain ⟨g', hAccepts', -⟩ := hTwin g hAccepts
      exact ⟨g', hAccepts'⟩
    · rintro ⟨g', hAccepts⟩
      exact hBack g' hAccepts
  content := by
    intro g g' hAccepts hAccepts'
    obtain ⟨g₁, hAccepts₁, hSame, hChains⟩ := hTwin g hAccepts
    obtain rfl := hUnique hAccepts₁ hAccepts'
    exact ⟨hSame.elementList, fun chains => hSame.chainBytes (hChains chains)⟩

theorem SameLineResidue.symm {r r' : RequestT} (h : SameLineResidue r r') : SameLineResidue r' r :=
  ⟨h.method.symm, h.version.symm, ⟨h.flags.complexUri.symm, h.flags.quotedUri.symm, h.flags.spaceInUri.symm⟩,
    h.uri.symm, h.protocol.symm, ⟨h.requestEnd.1.symm, h.requestEnd.2.symm⟩, h.upstream.symm⟩

/-- Lines that look the same lead to the same slices. -/
theorem SameLine.parsed {q q' : RequestT} (h : SameLine q q') (b : LtBuffer) :
    (httpRequestLineParsed q b).methodName = (httpRequestLineParsed q' b).methodName ∧
      (httpRequestLineParsed q b).uri = (httpRequestLineParsed q' b).uri ∧
      (httpRequestLineParsed q b).httpProtocol = (httpRequestLineParsed q' b).httpProtocol ∧
      (httpRequestLineParsed q b).values = (httpRequestLineParsed q' b).values ∧
      ((httpRequestLineParsed q b).upstream = 0 ↔ (httpRequestLineParsed q' b).upstream = 0) := by
  have hEnd : ptrDiff q.requestEnd q'.httpProtocol.data = ptrDiff q'.requestEnd q'.httpProtocol.data :=
    (Int.bmod_sub_cancel_right _).mpr h.requestEnd
  simp only [httpRequestLineParsed, RequestT.values, h.method, h.httpVersion, h.flags.complexUri, h.flags.quotedUri,
    h.flags.spaceInUri, h.requestStart, h.methodEnd, h.uriStart, h.uriEnd, h.uri, h.protocol, hEnd]
  split_ifs <;> exact ⟨rfl, rfl, rfl, rfl, h.upstream⟩

section Heads

variable {h : Head} {r r' : RequestT}

/-- With the same residue a request line is answered alike. -/
theorem requestLineAnswer_same {mem : Mem} {b : LtBuffer} (hState : r.state = 0) (hState' : r'.state = 0)
    (hResidue : SameLineResidue r r') : requestLineAnswer mem r b = requestLineAnswer mem r' b := by
  obtain ⟨hCode, hBuf, hLine⟩ := ngxHttpParseRequestLine_sameResidue mem b hState hState' hResidue
  simp only [requestLineAnswer, ← hCode, ← hBuf]
  split_ifs with hLok
  · rw [((hLine hLok).parsed _).2.2.2.1]
  · rfl

/-- What follows an accepted line, with two contents of the request. -/
theorem returns_same {g : Head} {b : LtBuffer} {q q' : RequestT} (hState : q.state = 0) (hState' : q'.state = 0)
    (hUpstream : q.upstream = 0 ↔ q'.upstream = 0)
    (hReturns : Returns headerTurn (({ h with req := q, buf := b } : Head).clearElements, none) g) :
    ∃ g', Returns headerTurn (({ h with req := q', buf := b } : Head).clearElements, none) g' ∧ SameLoop g g' ∧
      g.req.forgetHead = q.forgetHead ∧ g'.req.forgetHead = q'.forgetHead :=
  headerLoop_same (h := ({ h with req := q, buf := b } : Head).clearElements)
    (g := ({ h with req := q', buf := b } : Head).clearElements) ⟨rfl, rfl, rfl, rfl, rfl⟩ hState hState' hUpstream
    hReturns

/-- With the same residue a request that is accepted is accepted with the other content too. -/
theorem acceptsRequest_same {g : Head} (hState : r.state = 0) (hState' : r'.state = 0)
    (hResidue : SameLineResidue r r') (hAccepts : AcceptsRequest { h with req := r } g) :
    ∃ g', AcceptsRequest { h with req := r' } g' ∧ SameLoop g g' ∧
      ∀ chains, httpConstructRequestChains g chains = httpConstructRequestChains g' chains := by
  obtain ⟨q, b, hParse, hReturns⟩ := hAccepts
  obtain ⟨hCode, hBuf, hLine⟩ :=
    ngxHttpParseRequestLine_sameResidue h.mem h.buf hState hState' hResidue
  simp only at hParse
  rw [hParse] at hCode hBuf hLine
  obtain ⟨res, q', b', hParse'⟩ : ∃ res q' b', ngxHttpParseRequestLine h.mem r' h.buf = (res, q', b') :=
    ⟨_, _, _, rfl⟩
  rw [hParse'] at hCode hBuf hLine
  simp only at hCode hBuf hLine
  subst hCode hBuf
  obtain ⟨hMethod, hUri, hProtocol, -, hUpstream⟩ := (hLine trivial).parsed b
  obtain ⟨g', hReturns', hSame, hFrame, hFrame'⟩ := returns_same
    ((httpRequestLineParsed_state q b).trans (ngxHttpParseRequestLine_state hParse))
    ((httpRequestLineParsed_state q' b).trans (ngxHttpParseRequestLine_state hParse')) hUpstream hReturns
  refine ⟨g', ⟨q', b, hParse', hReturns'⟩, hSame, hSame.requestChains ?_ ?_ ?_⟩
  · have hField := congrArg RequestT.methodName hFrame
    have hField' := congrArg RequestT.methodName hFrame'
    exact hField.trans (hMethod.trans hField'.symm)
  · have hField := congrArg RequestT.uri hFrame
    have hField' := congrArg RequestT.uri hFrame'
    exact hField.trans (hUri.trans hField'.symm)
  · have hField := congrArg RequestT.httpProtocol hFrame
    have hField' := congrArg RequestT.httpProtocol hFrame'
    exact hField.trans (hProtocol.trans hField'.symm)

/-- A status line that is accepted has room for its digits. -/
theorem sameStatus_of_accepts {g : Head} (hSmall : h.Small) (hState : r.state = 0) (hState' : r'.state = 0)
    (hAlike : StatusAlike defaultBufSize r.status r'.status) (hAccepts : AcceptsResponse { h with req := r } g) :
    SameStatusResidue r.status r'.status := by
  refine hAlike.resolve_right fun ⟨hRoom, hRoom'⟩ => ?_
  obtain ⟨q, b, status, hParse, -⟩ := hAccepts
  have hLength : (h.buf.unread h.mem).length ≤ defaultBufSize := by rwa [LtBuffer.unread, length_slice]
  refine (ngxHttpParseStatusLine_starved h.mem h.buf hState hState' (hLength.trans_lt hRoom)
    (hLength.trans_lt hRoom')).2 ?_
  exact congrArg Prod.fst hParse

/-- With the same residue a response that is accepted is accepted with the other content too. -/
theorem acceptsResponse_same {g : Head} (hSmall : h.Small) (hState : r.state = 0) (hState' : r'.state = 0)
    (hAlike : StatusAlike defaultBufSize r.status r'.status) (hUpstream : r.upstream = 0 ↔ r'.upstream = 0)
    (hAccepts : AcceptsResponse { h with req := r } g) :
    ∃ g', AcceptsResponse { h with req := r' } g' ∧ SameLoop g g' ∧
      ∀ chains, constructResponseChains g chains = constructResponseChains g' chains := by
  have hResidue := sameStatus_of_accepts hSmall hState hState' hAlike hAccepts
  obtain ⟨q, b, status, hParse, hReturns⟩ := hAccepts
  obtain ⟨hCode, hBuf, hLine⟩ :=
    ngxHttpParseStatusLine_sameResidue h.mem h.buf hState hState' hResidue
  simp only at hParse
  rw [hParse] at hCode hBuf hLine
  obtain ⟨res, q', b', status', hParse'⟩ : ∃ res q' b' status',
      ngxHttpParseStatusLine h.mem r' h.buf r'.status = (res, q', b', status') := ⟨_, _, _, _, rfl⟩
  rw [hParse'] at hCode hBuf hLine
  simp only at hCode hBuf hLine
  subst hCode hBuf
  obtain ⟨rfl, hStart⟩ := hLine trivial
  obtain ⟨x, p, z, hRead, -, -, rfl, -⟩ := statusRead_of_lok hState hParse
  obtain ⟨x', p', z', hRead', -, -, rfl, -⟩ := statusRead_of_lok hState' hParse'
  have hStored : (storeStatusLine { p with state := 0 } status).upstream = 0 ↔
      (storeStatusLine { p' with state := 0 } status).upstream = 0 := by
    simp only [storeStatusLine, hRead.upstream, hRead'.upstream, hUpstream]
  obtain ⟨g', hReturns', hSame, hFrame, hFrame'⟩ := returns_same rfl rfl hStored hReturns
  refine ⟨g', ⟨_, b, status, hParse', hReturns'⟩, hSame, hSame.responseChains ?_⟩
  have hField := congrArg RequestT.requestLine hFrame
  have hField' := congrArg RequestT.requestLine hFrame'
  refine hField.trans (Eq.trans ?_ hField'.symm)
  simp only at hStart
  simp only [RequestT.forgetHead, RequestT.forgetHeader, storeStatusLine, hStart]

/-- With the same residue the bytes of a head in one buffer are parsed alike. -/
theorem SameResidue.parsesAlike (hSmall : h.Small) (hState : r.state = 0) (hState' : r'.state = 0)
    (hResidue : SameResidue r r') : ParsesAlike h r r' where
  requestLine := requestLineAnswer_same hState hState' hResidue.line
  request := sameMessage_of_twins AcceptsRequest.unique
    (fun _ hAccepts => acceptsRequest_same hState hState' hResidue.line hAccepts)
    fun _ hAccepts => by
      obtain ⟨g, hAccepts', -⟩ := acceptsRequest_same hState' hState hResidue.line.symm hAccepts
      exact ⟨g, hAccepts'⟩
  statusLine := (statusLineAnswer_eq_iff hState hState').mpr hResidue.status h.mem h.buf hSmall
  response := sameMessage_of_twins AcceptsResponse.unique
    (fun _ hAccepts => acceptsResponse_same hSmall hState hState' hResidue.status hResidue.line.upstream hAccepts)
    fun _ hAccepts => by
      obtain ⟨g, hAccepts', -⟩ := acceptsResponse_same hSmall hState' hState hResidue.status.symm
        hResidue.line.upstream.symm hAccepts
      exact ⟨g, hAccepts'⟩

end Heads

end Leactor
