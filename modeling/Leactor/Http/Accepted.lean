import Leactor.Http.Chains
import Leactor.Http.Pipeline
import Leactor.Parse.RequestSpec
import Leactor.Parse.StatusSpec

/-! The heads that the parsers accept to the end: a request line or a status
line, and the header block behind it. -/
namespace Leactor

open Ascii Scan Loop Memory

/-- What `http_process_response_line` stores behind an accepted status line. -/
def storeStatusLine (r : RequestT) (status : HttpStatus) : RequestT :=
  { r with
    status := status
    requestLine := ⟨ptrDiff status.end_ r.requestStart, r.requestStart⟩
    httpProtocol := { r.httpProtocol with length := ptrDiff r.httpProtocolEnd r.httpProtocol.data } }

/-- The parsers accept a request head and leave `h'`. -/
def AcceptsRequest (h h' : Head) : Prop :=
  ∃ r b, ngxHttpParseRequestLine h.mem h.req h.buf = (.lok, r, b) ∧
    Returns headerTurn
      (({ h with req := httpRequestLineParsed r b, buf := b } : Head).clearElements, none) h'

def AcceptsResponse (h h' : Head) : Prop :=
  ∃ r b status, ngxHttpParseStatusLine h.mem h.req h.buf h.req.status = (.lok, r, b, status) ∧
    Returns headerTurn (({ h with req := storeStatusLine r status, buf := b } : Head).clearElements, none) h'

theorem AcceptsRequest.unique {h h' h'' : Head} (hAccepts : AcceptsRequest h h')
    (hAccepts' : AcceptsRequest h h'') : h' = h'' := by
  obtain ⟨r, b, hLine, hReturns⟩ := hAccepts
  obtain ⟨r', b', hLine', hReturns'⟩ := hAccepts'
  rw [hLine] at hLine'
  cases hLine'
  exact hReturns.unique hReturns'

theorem AcceptsResponse.unique {h h' h'' : Head} (hAccepts : AcceptsResponse h h')
    (hAccepts' : AcceptsResponse h h'') : h' = h'' := by
  obtain ⟨r, b, status, hLine, hReturns⟩ := hAccepts
  obtain ⟨r', b', status', hLine', hReturns'⟩ := hAccepts'
  rw [hLine] at hLine'
  cases hLine'
  exact hReturns.unique hReturns'

/-- What the header loop leaves behind a line that ends at `pos`. -/
structure HeadersRead (h h' : Head) (pos : Nat) (blk : HeaderBlock) : Prop where
  readable : blk.Readable h.req.upstream
  req : h'.req.forgetHead = h.req.forgetHead
  buf : h'.buf = { h.buf with pos := pos + blk.bytes.length }
  state : h'.req.state = 0
  mem : h'.mem = lowerLines pos blk.lines h.mem
  list : ElementList h' h.elements.fresh (lineElements pos blk.lines)

/-- A header loop that returns has read a block. -/
theorem headersRead_of_returns {h h' : Head} (hState : h.req.state = 0)
    (hBound : h.buf.last - h.buf.pos < 2 ^ 31) (hReturns : Returns headerTurn (h.clearElements, none) h') :
    ∃ blk rest, h.buf.unread h.mem = blk.bytes ++ rest ∧ HeadersRead h h' h.buf.pos blk := by
  obtain ⟨blk, hRead, rest, hRest⟩ := beginsWithBlock_of_terminates (h := h.clearElements) hState ⟨h', hReturns⟩
  have hUnread : h.buf.unread h.mem = blk.bytes ++ rest := hRest.symm
  have hLength := congrArg List.length hUnread
  rw [LtBuffer.unread, length_slice, List.length_append] at hLength
  obtain ⟨h'', hReturns', hFrame, hList, hMem⟩ := headerLoop_collects none (h := h.clearElements) blk
    hState hUnread hRead (by omega) ⟨h.clearElements_list, rfl⟩
  obtain rfl := hReturns.unique hReturns'
  rw [List.nil_append] at hList
  exact ⟨blk, rest, hUnread, hRead, hFrame.req, hFrame.buf, hFrame.state, hMem, hList⟩

/-- A header loop over a block leaves what it has read. -/
theorem returns_of_block {h : Head} {rest : List UInt8} (blk : HeaderBlock) (hState : h.req.state = 0)
    (hUnread : h.buf.unread h.mem = blk.bytes ++ rest) (hRead : blk.Readable h.req.upstream)
    (hBound : blk.bytes.length < 2 ^ 31) :
    ∃ h', Returns headerTurn (h.clearElements, none) h' ∧ HeadersRead h h' h.buf.pos blk := by
  obtain ⟨h', hReturns, hFrame, hList, hMem⟩ := headerLoop_collects none (h := h.clearElements) blk
    hState hUnread hRead hBound ⟨h.clearElements_list, rfl⟩
  rw [List.nil_append] at hList
  exact ⟨h', hReturns, hRead, hFrame.req, hFrame.buf, hFrame.state, hMem, hList⟩

def plainHeader (crs : Nat) : HeaderText where
  first := upperA
  rest := []
  field := some ⟨1, [98], 0, List.forall_mem_singleton.mpr (by decide), by decide, by decide, by decide⟩
  crs := crs
  first_plain := by decide
  rest_plain := by simp

def plainBlock (crlf : Bool) : HeaderBlock where
  lines := [([], plainHeader (if crlf then 1 else 0))]
  skip := []
  blank := crlf

theorem plainBlock_readable (crlf : Bool) (upstream : Nat) : (plainBlock crlf).Readable upstream := by
  refine ⟨?_, .nil⟩
  simp only [plainBlock, List.mem_singleton, forall_eq]
  refine ⟨.nil, fun _ => ?_⟩
  simp [HeaderText.StartsReply, HeaderText.name, plainHeader, replyMark, ofChars]

theorem Head.received_unread (w : List UInt8) :
    (Head.received w).buf.unread (Head.received w).mem = w := by
  simp [Head.received, LtBuffer.unread]

end Leactor
