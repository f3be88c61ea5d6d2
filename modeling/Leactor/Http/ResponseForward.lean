import Leactor.Http.Relay

/-! Forwarding of a response head: `construct_response_chains` sends the status line
and the headers as slices of the received bytes, each widened by the two bytes
behind it. -/
namespace Leactor

open Ascii Scan Loop Memory

structure SameResponse (h g : Head) : Prop where
  code : g.req.status.code = h.req.status.code
  version : g.req.status.httpVersion = h.req.status.httpVersion
  text : slice g.mem g.req.status.start g.req.status.end_ = slice h.mem h.req.status.start h.req.status.end_
  fields : ∃ fields, headerFields h = some fields ∧ headerFields g = some fields

/-- Wherever the bytes `w` are received, the parsers accept them up to their end, as
the response `h`. -/
def ForwardsResponse (h : Head) (w : List UInt8) : Prop :=
  ∀ g : Head, g.req = {} → g.buf.unread g.mem = w →
    ∃ g', AcceptsResponse g g' ∧ g'.buf.pos = g.buf.last ∧ SameResponse h g'

/-- The response as the builder expects it: the status line ends in CR LF, and a
relayable block stands behind it. -/
def ResponseLayout (h : Head) : Prop :=
  ∃ (line : List UInt8) (blk : HeaderBlock) (rest : List UInt8),
    h.buf.unread h.mem = line ++ lf :: (blk.bytes ++ rest) ∧ lf ∉ line ∧ line.getLast? = some cr ∧
      blk.Readable 0 ∧ blk.Relayable

/-- The slices of a response that is laid out as expected: its status line, and the
lines of its block as they are relayed. -/
theorem HeadersRead.responseBytes {h h' : Head} {line rest : List UInt8} {p : Nat} {blk : HeaderBlock}
    {buf : LtBuffer} {r : RequestT} (hNe : line ≠ [])
    (hRead : HeadersRead { h with req := r, buf := { buf with pos := p + line.length + 1 } } h'
      (p + line.length + 1) blk)
    (hText : slice h.mem p buf.last = line ++ lf :: (blk.bytes ++ rest)) (hRelay : blk.Relayable)
    (hLine : h'.req.requestLine = ⟨(line.length - 1 : Nat), p⟩) (hSize : buf.last - p < 2 ^ 31) :
    iovBytes h'.mem (responseIovecs h'.req (lineElements (p + line.length + 1) blk.lines)) =
      line ++ lf :: blk.relayed.bytes := by
  have hPos := List.length_pos_iff.mpr hNe
  have hLength := congrArg List.length hText
  simp only [length_slice, List.length_append, List.length_cons] at hLength
  obtain ⟨hFront, hTail⟩ := slice_eq_append hText
  obtain ⟨hIn, hLf, hBlock⟩ := slice_eq_cons hTail
  have hBytes : slice h'.mem p (p + line.length + 1) = line ++ [lf] := by
    rw [hRead.front (Nat.le_refl _)]
    simp only
    rw [slice_succ (Nat.le_add_right _ _), hFront, hLf]
  have hWiden : h'.req.requestLine.widen 2 = ⟨p, line.length + 1⟩ := by
    rw [hLine, widen_of_bounds _ (by omega) (by omega), Iovec.mk.injEq]
    exact ⟨rfl, by omega⟩
  have hElements := hRead.elementBytes hBlock hRelay (by omega)
  rw [responseIovecs, List.singleton_append, iovBytes_cons, hElements, hWiden]
  simp only [← Nat.add_assoc]
  rw [hBytes, List.append_assoc]
  rfl

def plainStatus : List UInt8 :=
  ofChars ['H', 'T', 'T', 'P', '/', '1', '.', '1', ' ', '2', '0', '0', ' ', 'O', 'K'] ++ [cr]

def plainResponse (blk : HeaderBlock) : Head := .received (plainStatus ++ lf :: blk.bytes)

theorem plainResponse_unread (blk : HeaderBlock) : (plainResponse blk).buf.unread (plainResponse blk).mem =
    plainStatus ++ lf :: (blk.bytes ++ []) := by
  rw [plainResponse, Head.received_unread, List.append_nil]

theorem plainResponse_accepted {blk : HeaderBlock} (hRead : blk.Readable 0) (hBound : blk.bytes.length < 2 ^ 31) :
    ∃ h', AcceptsResponse (plainResponse blk) h' := by
  obtain ⟨q, z, hRun, hState, hUpstream⟩ : ∃ q z, run statusLineStep 1 ⟨.start, {}, {}⟩ (plainStatus ++ [lf]) =
      .halted 17 (.done q z) ∧ q.state = 0 ∧ q.upstream = 0 := ⟨_, _, rfl, rfl, rfl⟩
  have hText := plainResponse_unread blk
  have hParse : ngxHttpParseStatusLine (plainResponse blk).mem {} (plainResponse blk).buf {} =
      (.lok, { q with state := 0 }, { (plainResponse blk).buf with pos := 18 },
        { z with
          end_ := if z.end_ = 0 then 17 else z.end_
          httpVersion := wrap32 (q.httpMajor * 1000 + q.httpMinor) }) := by
    rw [ngxHttpParseStatusLine, hText, List.append_cons]
    simp only [StatusLineState.ofNat?_zero]
    rw [show (plainResponse blk).buf.pos = 1 from rfl, run_append_of_halted _ hRun]
  obtain ⟨h', hReturns, -⟩ := returns_of_block
    (h := { plainResponse blk with
      req := storeStatusLine { q with state := 0 } { z with
        end_ := if z.end_ = 0 then 17 else z.end_
        httpVersion := wrap32 (q.httpMajor * 1000 + q.httpMinor) }
      buf := { (plainResponse blk).buf with pos := 18 } })
    blk rfl (slice_eq_cons (slice_eq_append hText).2).2.2
    (by rw [show RequestT.upstream _ = 0 from hUpstream]; exact hRead) hBound
  exact ⟨h', _, _, _, hParse, hReturns⟩

/-- No chain is built for a head without a valid header: the builder reads a NULL element. -/
theorem constructResponseChains_none {h : Head} (hHead : h.req.elementHead = none) (chains : Arena LtChain) :
    constructResponseChains h chains = none := by
  rw [constructResponseChains]
  simp only [hHead]
  cases h.elements.fresh <;> rfl

/-- A response that is laid out as expected is forwarded: read again, the bytes of its
chain are the same response, and end where its head does. The chain pool may hold any
other chains. -/
theorem response_forwarded {h h' : Head} (hZero : h.req = {}) (hSize : h.buf.last - h.buf.pos < 2 ^ 30)
    (hAccepts : AcceptsResponse h h') (hLayout : ResponseLayout h) (chains : Arena LtChain) :
    ∃ chains' bufs last, constructResponseChains h' chains = some (chains.fresh, chains') ∧
      outVec chains' chains.fresh = some (bufs, last) ∧ ForwardsResponse h' (iovBytes h'.mem bufs) := by
  obtain ⟨line, blk, rest, hUnread, hPlain, hCr, hRead, hRelay⟩ := hLayout
  have hState : h.req.state = 0 := by rw [hZero]
  obtain ⟨r, c, status, hParse, hNe, -, hFirst, hEnd, hHeaders⟩ := hAccepts.read hState (by omega) hUnread
    hPlain (by rwa [hZero])
  rw [if_pos hCr] at hEnd
  have hPos := List.length_pos_iff.mpr hNe
  have hLength := congrArg List.length hUnread
  simp only [LtBuffer.unread, length_slice, List.length_append, List.length_cons] at hLength
  have hStatus : h'.req.status = status := by
    have hField := congrArg RequestT.status hHeaders.req
    exact hField
  have hLine : h'.req.requestLine = ⟨(line.length - 1 : Nat), h.buf.pos⟩ := by
    have hField := congrArg RequestT.requestLine hHeaders.req
    refine hField.trans ?_
    change (⟨ptrDiff status.end_ r.requestStart, r.requestStart⟩ : LtString) = _
    rw [hFirst, hEnd, ptrDiff_of_le (by omega) (by omega)]
    congr 2
    omega
  obtain ⟨chains', hConstruct, hChain⟩ := constructResponseChains_built chains hHeaders.list
    (mt (lineElements_eq_nil _ _).mp hRelay.exists_valid)
  refine ⟨chains', _, _, hConstruct, hChain.outVec (by simp [responseIovecs]), ?_⟩
  rw [hHeaders.responseBytes hNe hUnread hRelay hLine (by omega)]
  intro g hg hText
  -- the same line in another place
  obtain ⟨r', status', hParse', hSame, hVersion⟩ := ngxHttpParseStatusLine_moved hState
    (show g.req.state = 0 by rw [hg]) (show h.req.status.code = g.req.status.code by rw [hZero, hg])
    (show h.req.status.count = g.req.status.count by rw [hZero, hg]) hUnread hPlain hText hParse
  obtain ⟨x, q, z, hStatus', -, -, rfl, -, -, -⟩ := statusRead_of_lok (by rw [hg]) hParse'
  have hLength' := congrArg List.length hText
  have hDouble := blk.relayed_length
  simp only [LtBuffer.unread, length_slice, List.length_append, List.length_cons] at hLength'
  have hUpstream : (storeStatusLine { q with state := 0 } status').upstream = 0 :=
    hStatus'.upstream.trans (by rw [hg])
  obtain ⟨g', hReturns, hHeaders'⟩ := @returns_of_block
    { g with
      req := storeStatusLine { q with state := 0 } status'
      buf := { g.buf with pos := g.buf.pos + line.length + 1 } }
    [] blk.relayed rfl
    ((slice_eq_cons (slice_eq_append hText).2).2.2.trans (List.append_nil _).symm)
    (by rw [hUpstream]; exact HeaderBlock.relayed_readable hRead) (by omega)
  have hAccepts' : AcceptsResponse g g' := ⟨_, _, _, hParse', hReturns⟩
  refine ⟨g', hAccepts', ?_, ?_⟩
  · rw [hHeaders'.buf]
    simp only
    omega
  have hReadable : blk.relayed.Readable g.req.upstream := by
    rw [hg]
    exact HeaderBlock.relayed_readable hRead
  obtain ⟨r'', c', status'', hParse'', -, -, -, hEnd', -⟩ := hAccepts'.read (by rw [hg]) (by omega)
    (by rwa [List.append_nil]) hPlain hReadable
  rw [hParse'] at hParse''
  obtain rfl : status' = status'' := congrArg (fun t => t.2.2.2) hParse''
  have hStatus₁ : g'.req.status = status' := by
    have hField := congrArg RequestT.status hHeaders'.req
    exact hField
  rw [if_pos hCr] at hEnd'
  refine ⟨by rw [hStatus₁, hStatus, hSame.code], by rw [hStatus₁, hStatus, hVersion], ?_, ?_⟩
  · obtain ⟨j, hStart, hStart'⟩ := hSame.start
    have hFront := (slice_eq_append hUnread).1
    have hFront' := (slice_eq_append hText).1
    rw [hStatus₁, hStatus, hEnd, hEnd', hStart, hStart',
      hHeaders'.front (show _ ≤ g.buf.pos + line.length + 1 by omega), hHeaders.front (by omega)]
    simp only
    rw [Nat.add_sub_assoc hPos, Nat.add_sub_assoc hPos, slice_drop, slice_drop,
      slice_take (Nat.sub_le line.length 1), slice_take (Nat.sub_le line.length 1), hFront, hFront']
  · refine ⟨_, hHeaders.fields (slice_eq_cons (slice_eq_append hUnread).2).2.2, ?_⟩
    have hFields := hHeaders'.fields
      ((slice_eq_cons (slice_eq_append hText).2).2.2.trans (List.append_nil _).symm)
    rw [hFields, Option.some.injEq]
    exact lineFields_relayLines blk.lines

theorem response_forwarded_plainBlock : ∃ h' chains' bufs last,
    AcceptsResponse (plainResponse (plainBlock true)) h' ∧
      constructResponseChains h' ⟨[], fun _ => ⟨⟨0, 0⟩, none, 0⟩⟩ = some (0, chains') ∧
      outVec chains' 0 = some (bufs, last) ∧ ForwardsResponse h' (iovBytes h'.mem bufs) := by
  obtain ⟨h', hAccepts⟩ := plainResponse_accepted (plainBlock_readable true 0) (by decide)
  obtain ⟨chains', bufs, last, hForwards⟩ := response_forwarded (h := plainResponse (plainBlock true)) rfl
    (by decide) hAccepts
    ⟨plainStatus, plainBlock true, [], plainResponse_unread _, by decide, by decide,
      plainBlock_readable true 0, plainBlock_relayable⟩ ⟨[], fun _ => ⟨⟨0, 0⟩, none, 0⟩⟩
  exact ⟨h', chains', bufs, last, hAccepts, hForwards⟩

/-- A response without headers is not forwarded at all. -/
theorem not_response_forwarded :
    ¬ ∀ (h h' : Head) (chains : Arena LtChain), h.req = {} → h.buf.last - h.buf.pos < 2 ^ 30 →
      AcceptsResponse h h' →
      ∃ first chains' bufs last, constructResponseChains h' chains = some (first, chains') ∧
        outVec chains' first = some (bufs, last) ∧ ForwardsResponse h' (iovBytes h'.mem bufs) := by
  intro hClaim
  have hRead : HeaderBlock.Readable 0 ⟨[], [], true⟩ := ⟨fun e he => (nomatch he), .nil⟩
  obtain ⟨h', hAccepts⟩ := plainResponse_accepted hRead (by decide)
  obtain ⟨r, c, status, -, -, -, -, -, hHeaders⟩ := hAccepts.read rfl (by decide) (plainResponse_unread _)
    (by decide) hRead
  obtain ⟨first, chains', bufs, last, hConstruct, -⟩ := hClaim _ h' ⟨[], fun _ => ⟨⟨0, 0⟩, none, 0⟩⟩ rfl
    (by decide) hAccepts
  rw [constructResponseChains_none (hHeaders.list.head.trans (if_pos rfl))] at hConstruct
  exact nomatch hConstruct

end Leactor
