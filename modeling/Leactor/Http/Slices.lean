import Leactor.Http.Accepted
import Leactor.Net.SendChains

/-! Where the slices of a chain lie. The slices of a request line come from
pointers that some lines leave untouched, and the last value of a head is
widened by four bytes whatever stands behind it. -/
namespace Leactor

open Ascii Scan Loop Memory

/-- The slice denotes received bytes of the buffer only. -/
def Iovec.InBuffer (v : Iovec) (b : LtBuffer) : Prop := b.start ≤ v.base ∧ v.base + v.len ≤ b.last

instance (v : Iovec) (b : LtBuffer) : Decidable (v.InBuffer b) := inferInstanceAs (Decidable (_ ∧ _))

instance : DecidablePred TargetText.Marked
  | .path _ rest _ => inferInstanceAs (Decidable (pathRequest rest).UriMarked)
  | .bare _ => inferInstanceAs (Decidable False)

theorem widen_of_bounds {n : Nat} {k : Int} (a : Nat) (hk : 0 ≤ k) (h : n + k < 2 ^ 31) :
    LtString.widen ⟨n, a⟩ k = ⟨a, n + k.toNat⟩ := by
  unfold LtString.widen
  rw [wrap32_of_bounds (by simp only; omega) (by simp only; omega)]
  simp only [toSize]
  congr 1
  omega

/-- Four received bytes stand behind the last value. -/
def RoomBehind (last p : Nat) (lines : List (List UInt8 × HeaderText)) : Prop :=
  ∀ f ∈ (lineElements p lines).getLast?, f.2.data + f.2.length.toNat + 4 ≤ last

/-- The slices of a row of header lines lie in the buffer exactly if the last
value has room behind it. -/
theorem elementIovecs_inBuffer {b : LtBuffer} {p : Nat} (lines : List (List UInt8 × HeaderText))
    (hLow : b.start ≤ p) (hHigh : p + (HeaderBlock.linesBytes lines).length + 1 ≤ b.last)
    (hSize : b.last - b.start < 2 ^ 31) :
    (∀ v ∈ elementIovecs (lineElements p lines), v.InBuffer b) ↔ RoomBehind b.last p lines := by
  induction lines generalizing p with
  | nil => simp [elementIovecs, lineElements, RoomBehind]
  | cons e lines ih =>
      obtain ⟨skip, l⟩ := e
      have hLength : (HeaderBlock.linesBytes ((skip, l) :: lines)).length =
          skip.length + l.bytes.length + (HeaderBlock.linesBytes lines).length := by
        simp only [HeaderBlock.linesBytes, List.flatMap_cons, List.length_append]
      rw [hLength] at hHigh
      have hRest := ih (p := p + skip.length + l.bytes.length) (by omega) (by omega)
      have hName := l.name_length_le
      have hValue := l.value_end_le
      have hKept := l.keptLength_le
      by_cases hValid : l.Valid
      · have hKey : Iovec.InBuffer ((l.element (p + skip.length)).1.widen 2) b := by
          have hWiden : (l.element (p + skip.length)).1.widen 2 = ⟨p + skip.length, l.name.length + 2⟩ :=
            widen_of_bounds _ (by omega) (by omega)
          rw [hWiden]
          unfold Iovec.InBuffer
          simp only
          omega
        have hWiden : (l.element (p + skip.length)).2.widen 2 =
            ⟨p + skip.length + l.valueOffset, l.keptLength + 2⟩ :=
          widen_of_bounds _ (by omega) (by omega)
        cases hTail : lineElements (p + skip.length + l.bytes.length) lines with
        | nil =>
            have hElements : lineElements p ((skip, l) :: lines) = [l.element (p + skip.length)] := by
              simp [lineElements, hValid, hTail]
            have hGrow : (((l.element (p + skip.length)).2.widen 2).grow).len = l.keptLength + 4 := by
              rw [hWiden]
              simp only [Iovec.grow]
              omega
            rw [hElements, RoomBehind, hElements]
            simp only [elementIovecs, List.mem_cons, List.not_mem_nil, or_false, forall_eq_or_imp, forall_eq,
              List.getLast?_singleton, Option.mem_def, Option.some.injEq, forall_eq']
            rw [and_iff_right hKey, Iovec.InBuffer, hGrow, hWiden]
            simp only [Iovec.grow, HeaderText.element, Int.toNat_natCast]
            omega
        | cons g fields =>
            have hElements : lineElements p ((skip, l) :: lines) = l.element (p + skip.length) :: g :: fields := by
              simp [lineElements, hValid, hTail]
            have hFirst : Iovec.InBuffer ((l.element (p + skip.length)).2.widen 2) b := by
              rw [hWiden]
              unfold Iovec.InBuffer
              simp only
              omega
            rw [RoomBehind, hTail] at hRest
            rw [hElements, RoomBehind, hElements, List.getLast?_cons_cons, elementIovecs,
              List.forall_mem_cons, List.forall_mem_cons, and_iff_right hKey, and_iff_right hFirst]
            exact hRest
      · have hElements : lineElements p ((skip, l) :: lines) =
            lineElements (p + skip.length + l.bytes.length) lines := by
          simp [lineElements, hValid]
        rw [hElements, RoomBehind, hElements, ← RoomBehind, hRest]

section Line

variable (t : RequestLineText) (p : Nat) (r : RequestT)

/-- Where the URI's slice starts behind the line at `p`. A marked request keeps its old pointer. -/
def RequestLineText.uriAt : Nat :=
  if t.target.Marked ∨ r.UriMarked then r.uri.data else p + t.opening.length + t.target.uriOffset

/-- Where the version's slice starts. A line without a version keeps the old pointer. -/
def RequestLineText.versionAt : Nat :=
  if t.version.isSome then p + t.front.length else r.httpProtocol.data

/-- Where the version's slice ends. Only a carriage return sets a pointer that is set already. -/
def RequestLineText.endAt : Nat :=
  if t.crlf then p + t.bytes.length - 2
  else if r.requestEnd = 0 then p + t.bytes.length - 1 else r.requestEnd

def RequestLineText.versionSlice : Iovec :=
  LtString.widen ⟨ptrDiff (t.endAt p r) (t.versionAt p r), t.versionAt p r⟩ 2

/-- What `http_request_line_parsed` leaves behind the line at `p`. -/
structure StoredLine (r' : RequestT) : Prop where
  methodName : r'.methodName = ⟨t.method.length, p + t.skip.length⟩
  uri : r'.uri = ⟨t.target.uri.length, t.uriAt p r⟩
  unparsedUri : r'.unparsedUri = ⟨t.target.uri.length, p + t.opening.length + t.target.uriOffset⟩
  httpProtocol : r'.httpProtocol = ⟨ptrDiff (t.endAt p r) (t.versionAt p r), t.versionAt p r⟩
  state : r'.state = 0
  upstream : r'.upstream = r.upstream

end Line

theorem TargetText.uri_le (t : TargetText) : t.uriOffset + t.uri.length ≤ t.bytes.length := by
  cases t with
  | path => simp [bytes, uriOffset, uri]
  | bare =>
      simp only [bytes, uriOffset, uri, AuthorityText.bytes, List.length_append, List.length_cons,
        List.length_nil]
      omega

theorem httpRequestLineParsed_stored {mem : Mem} {t : RequestLineText} {p : Nat} {r q : RequestT}
    (b : LtBuffer) (hReads : ReadsRequestLine mem t p r q) (hBound : t.bytes.length < 2 ^ 31) :
    StoredLine t p r (httpRequestLineParsed (requestLineDone (p + t.bytes.length - 1) q).2 b) := by
  obtain ⟨hOpening, hMethod, hFront, hBytes⟩ := t.length_bytes
  have hUri := t.target.uri_le
  have hEnd : (if q.requestEnd = 0 then p + t.bytes.length - 1 else q.requestEnd) = t.endAt p r := by
    rw [hReads.requestEnd, RequestLineText.endAt]
    cases hCr : t.crlf with
    | true =>
        have hTwo : (lineBreak t.crlf).length = 2 := by rw [hCr]; rfl
        simp only [if_true]
        rw [if_neg (by omega)]
    | false => rfl
  have hUpstream : q.upstream = r.upstream := by
    have hField := congrArg RequestT.upstream hReads.frame
    exact hField
  have hOldUri : q.uri = r.uri := by
    have hField := congrArg RequestT.uri hReads.frame
    exact hField
  have hUriLength : ptrDiff q.uriEnd q.uriStart = t.target.uri.length := by
    rw [hReads.uriEnd, hReads.uriStart, ptrDiff_of_le (by omega) (by omega), Nat.add_sub_cancel_left]
  have hMethodLength : wrap32 (ptrDiff q.methodEnd q.requestStart + 1) = t.method.length := by
    rw [hReads.methodEnd, hReads.requestStart, ptrDiff_of_le (by omega) (by omega),
      wrap32_of_bounds (by omega) (by omega)]
    omega
  rw [requestLineDone_snd]
  refine ⟨?_, ?_, ?_, ?_, ?_, ?_⟩
  · rw [← hMethodLength, ← hReads.requestStart]
    simp only [httpRequestLineParsed]
    split_ifs <;> rfl
  · simp only [httpRequestLineParsed, RequestLineText.uriAt]
    by_cases hMarked : q.complexUri ≠ 0 ∨ q.quotedUri ≠ 0
    · rw [if_pos hMarked, if_pos (hReads.marked.mp hMarked)]
      simp only [hUriLength, hOldUri]
    · rw [if_neg hMarked, if_neg (mt hReads.marked.mpr hMarked), ← hUriLength, ← hReads.uriStart]
  · rw [← hUriLength, ← hReads.uriStart]
    simp only [httpRequestLineParsed]
    split_ifs <;> rfl
  · simp only [httpRequestLineParsed, hEnd, RequestLineText.versionAt, ← hReads.protocol]
    split_ifs <;> rfl
  · exact httpRequestLineParsed_state _ _
  · simp only [httpRequestLineParsed]
    split_ifs <;> exact hUpstream

/-- The line's slices lie in the buffer if the request keeps no old pointer, or
if the old pointers happen to bound a range of it. -/
theorem requestLine_inBuffer {t : RequestLineText} {p : Nat} {r r' : RequestT} {b : LtBuffer}
    (hStored : StoredLine t p r r') (hLow : b.start ≤ p) (hHigh : p + t.bytes.length + 1 ≤ b.last)
    (hSize : b.last - b.start < 2 ^ 31) :
    (∀ v ∈ [r'.methodName.widen 1, r'.uri.widen 1, r'.httpProtocol.widen 2], v.InBuffer b) ↔
      (¬ (t.target.Marked ∨ r.UriMarked) ∨
        Iovec.InBuffer ⟨r.uri.data, t.target.uri.length + 1⟩ b) ∧
      (t.version.isSome ∧ (t.crlf ∨ r.requestEnd = 0) ∨ (t.versionSlice p r).InBuffer b) := by
  obtain ⟨hOpening, hMethod, hFront, hBytes⟩ := t.length_bytes
  have hUri := t.target.uri_le
  have hBreak := lineBreak_length t.crlf
  have hMethodSlice : (r'.methodName.widen 1).InBuffer b := by
    rw [hStored.methodName, widen_of_bounds _ (by omega) (by omega)]
    unfold Iovec.InBuffer
    simp only
    omega
  have hUriSlice : (r'.uri.widen 1).InBuffer b ↔ ¬ (t.target.Marked ∨ r.UriMarked) ∨
      Iovec.InBuffer ⟨r.uri.data, t.target.uri.length + 1⟩ b := by
    rw [hStored.uri, widen_of_bounds _ (by omega) (by omega), RequestLineText.uriAt]
    by_cases hMarked : t.target.Marked ∨ r.UriMarked
    · rw [if_pos hMarked]
      simp only [hMarked, not_true, false_or]
      rfl
    · rw [if_neg hMarked]
      simp only [hMarked, not_false_eq_true, true_or, iff_true]
      unfold Iovec.InBuffer
      simp only
      omega
  have hVersionSlice : t.version.isSome ∧ (t.crlf ∨ r.requestEnd = 0) → (t.versionSlice p r).InBuffer b := by
    rintro ⟨hVersion, hEnd⟩
    have hAt : t.versionAt p r = p + t.front.length := if_pos hVersion
    have hEndAt : t.endAt p r = p + t.bytes.length - (lineBreak t.crlf).length := by
      rw [hBreak, RequestLineText.endAt]
      split_ifs with hCr hZero
      · rfl
      · rfl
      · exact absurd hEnd (not_or.mpr ⟨hCr, hZero⟩)
    rw [RequestLineText.versionSlice, hAt, hEndAt, ptrDiff_of_le (by omega) (by omega),
      widen_of_bounds _ (by omega) (by rw [hBreak]; split_ifs <;> omega)]
    unfold Iovec.InBuffer
    simp only [hBreak] at hBytes ⊢
    split_ifs at hBytes ⊢ <;> omega
  simp only [List.forall_mem_cons, List.not_mem_nil, false_imp_iff, implies_true, and_true]
  rw [and_iff_right hMethodSlice, hUriSlice, hStored.httpProtocol, ← RequestLineText.versionSlice]
  exact and_congr_right fun _ => ⟨Or.inr, fun h => h.elim hVersionSlice id⟩

/-- An accepted request head is a request line and a header block. -/
theorem AcceptsRequest.text {h h' : Head} (hAccepts : AcceptsRequest h h') (hState : h.req.state = 0)
    (hSize : h.buf.last - h.buf.pos < 2 ^ 31) :
    ∃ (t : RequestLineText) (blk : HeaderBlock) (rest : List UInt8),
      h.buf.unread h.mem = t.bytes ++ (blk.bytes ++ rest) ∧ blk.Readable h.req.upstream := by
  obtain ⟨r, b, hParse, hReturns⟩ := hAccepts
  obtain ⟨t, rest, q, hUnread, hReads, rfl, rfl⟩ := requestLineText_of_lok hState hParse
  have hLength := congrArg List.length hUnread
  rw [LtBuffer.unread, length_slice, List.length_append] at hLength
  have hStored := httpRequestLineParsed_stored { h.buf with pos := h.buf.pos + t.bytes.length } hReads
    (by omega)
  obtain ⟨blk, rest', hBlock, hRead⟩ := headersRead_of_returns
    (h := { h with
      req := httpRequestLineParsed (requestLineDone (h.buf.pos + t.bytes.length - 1) q).2
        { h.buf with pos := h.buf.pos + t.bytes.length }
      buf := { h.buf with pos := h.buf.pos + t.bytes.length } })
    hStored.state (by simp only; omega) hReturns
  refine ⟨t, blk, rest', ?_, ?_⟩
  · rw [← hBlock, hUnread]
    congr 1
    exact (slice_eq_append hUnread).2.symm
  · have hUpstream := hRead.readable
    rwa [hStored.upstream] at hUpstream

/-- What the parsers leave of an accepted request head, whose text is known. Nothing is
assumed of the block's old contents but its state. -/
theorem AcceptsRequest.parsed {h h' : Head} {t : RequestLineText} {blk : HeaderBlock} {rest : List UInt8}
    (hAccepts : AcceptsRequest h h') (hState : h.req.state = 0)
    (hSize : h.buf.last - h.buf.pos < 2 ^ 31)
    (hUnread : h.buf.unread h.mem = t.bytes ++ (blk.bytes ++ rest))
    (hRead : blk.Readable h.req.upstream) :
    ∃ q, ReadsRequestLine h.mem t h.buf.pos h.req q ∧
      (requestLineDone (h.buf.pos + t.bytes.length - 1) q).1 = .lok ∧
      HeadersRead { h with
          req := httpRequestLineParsed (requestLineDone (h.buf.pos + t.bytes.length - 1) q).2
            { h.buf with pos := h.buf.pos + t.bytes.length }
          buf := { h.buf with pos := h.buf.pos + t.bytes.length } } h'
        (h.buf.pos + t.bytes.length) blk := by
  obtain ⟨r, b, hParse, hReturns⟩ := hAccepts
  obtain ⟨q, hReads, hLine⟩ := ngxHttpParseRequestLine_text t hState hUnread
  rw [hLine] at hParse
  simp only [Prod.mk.injEq] at hParse
  obtain ⟨hDone, rfl, rfl⟩ := hParse
  have hLength := congrArg List.length hUnread
  rw [LtBuffer.unread, length_slice, List.length_append, List.length_append] at hLength
  have hStored := httpRequestLineParsed_stored { h.buf with pos := h.buf.pos + t.bytes.length } hReads
    (by omega)
  refine ⟨q, hReads, hDone, ?_⟩
  obtain ⟨h'', hReturns', hHeaders⟩ := returns_of_block
    (h := { h with
      req := httpRequestLineParsed (requestLineDone (h.buf.pos + t.bytes.length - 1) q).2
        { h.buf with pos := h.buf.pos + t.bytes.length }
      buf := { h.buf with pos := h.buf.pos + t.bytes.length } })
    blk hStored.state (slice_eq_append hUnread).2 (by rwa [hStored.upstream]) (by omega)
  rwa [hReturns.unique hReturns']

/-- What is left of it in the request. -/
theorem AcceptsRequest.read {h h' : Head} {t : RequestLineText} {blk : HeaderBlock} {rest : List UInt8}
    (hAccepts : AcceptsRequest h h') (hState : h.req.state = 0)
    (hSize : h.buf.last - h.buf.pos < 2 ^ 31)
    (hUnread : h.buf.unread h.mem = t.bytes ++ (blk.bytes ++ rest))
    (hRead : blk.Readable h.req.upstream) :
    ∃ r, StoredLine t h.buf.pos h.req r ∧
      HeadersRead { h with req := r, buf := { h.buf with pos := h.buf.pos + t.bytes.length } } h'
        (h.buf.pos + t.bytes.length) blk := by
  obtain ⟨q, hReads, -, hHeaders⟩ := hAccepts.parsed hState hSize hUnread hRead
  have hLength := congrArg List.length hUnread
  rw [LtBuffer.unread, length_slice, List.length_append] at hLength
  exact ⟨_, httpRequestLineParsed_stored _ hReads (by omega), hHeaders⟩

/-- The bytes of a request head and the old content of its `request_t` leave
every slice of its chain inside the buffer. -/
def RequestHeadFits (h : Head) : Prop :=
  ∃ (t : RequestLineText) (blk : HeaderBlock) (rest : List UInt8),
    h.buf.unread h.mem = t.bytes ++ (blk.bytes ++ rest) ∧ blk.Readable h.req.upstream ∧
    (¬ (t.target.Marked ∨ h.req.UriMarked) ∨
      Iovec.InBuffer ⟨h.req.uri.data, t.target.uri.length + 1⟩ h.buf) ∧
    (t.version.isSome ∧ (t.crlf ∨ h.req.requestEnd = 0) ∨ (t.versionSlice h.buf.pos h.req).InBuffer h.buf) ∧
    RoomBehind h.buf.last (h.buf.pos + t.bytes.length) blk.lines

/-- The slices of an accepted request head, whose text is known. A URI that needs
decoding, and a line without an end of its own, show the pointers of an older request.
-/
theorem AcceptsRequest.slices {h h' : Head} {t : RequestLineText} {blk : HeaderBlock} {rest : List UInt8}
    (hAccepts : AcceptsRequest h h') (hState : h.req.state = 0) (hStart : h.buf.start ≤ h.buf.pos)
    (hSize : h.buf.last - h.buf.start < 2 ^ 31) (chains : Arena LtChain)
    (hUnread : h.buf.unread h.mem = t.bytes ++ (blk.bytes ++ rest))
    (hRead : blk.Readable h.req.upstream) :
    ∃ chains' bufs last, httpConstructRequestChains h' chains = some (chains.fresh, chains') ∧
      outVec chains' chains.fresh = some (bufs, last) ∧
      ((∀ v ∈ bufs, v.InBuffer h'.buf) ↔
        ((¬ (t.target.Marked ∨ h.req.UriMarked) ∨
          Iovec.InBuffer ⟨h.req.uri.data, t.target.uri.length + 1⟩ h.buf) ∧
        (t.version.isSome ∧ (t.crlf ∨ h.req.requestEnd = 0) ∨
          (t.versionSlice h.buf.pos h.req).InBuffer h.buf)) ∧
        RoomBehind h.buf.last (h.buf.pos + t.bytes.length) blk.lines) := by
  obtain ⟨r, hStored, hHeaders⟩ := hAccepts.read hState (by omega) hUnread hRead
  obtain ⟨chains', hConstruct, hChain⟩ := httpConstructRequestChains_built chains hHeaders.list
  have hSame : h'.req.methodName = r.methodName ∧ h'.req.uri = r.uri ∧
      h'.req.httpProtocol = r.httpProtocol := by
    have hName := congrArg RequestT.methodName hHeaders.req
    have hUri := congrArg RequestT.uri hHeaders.req
    have hProtocol := congrArg RequestT.httpProtocol hHeaders.req
    exact ⟨hName, hUri, hProtocol⟩
  have hLength := congrArg List.length hUnread
  rw [LtBuffer.unread, length_slice, List.length_append, List.length_append] at hLength
  have hBlock : 0 < (lineBreak blk.blank).length := by
    rw [lineBreak_length]
    split_ifs <;> omega
  have hBlockLength : blk.bytes.length = (HeaderBlock.linesBytes blk.lines).length +
      (blk.skip.length + (lineBreak blk.blank).length) := by
    simp only [HeaderBlock.bytes, List.length_append]
  have hLine := requestLine_inBuffer hStored hStart (by omega) hSize
  have hElements := elementIovecs_inBuffer (b := h.buf) (p := h.buf.pos + t.bytes.length) blk.lines
    (by omega) (by omega) hSize
  refine ⟨chains', _, _, hConstruct, hChain.outVec (by simp [requestIovecs]), ?_⟩
  rw [← hLine, ← hElements, hHeaders.buf, requestIovecs, hSame.1, hSame.2.1, hSame.2.2]
  exact List.forall_mem_append

/-- The slices of an accepted request head. -/
theorem requestSlices_inBuffer_iff {h h' : Head} (hAccepts : AcceptsRequest h h')
    (hState : h.req.state = 0) (hStart : h.buf.start ≤ h.buf.pos)
    (hSize : h.buf.last - h.buf.start < 2 ^ 31) (chains : Arena LtChain) :
    ∃ chains' bufs last, httpConstructRequestChains h' chains = some (chains.fresh, chains') ∧
      outVec chains' chains.fresh = some (bufs, last) ∧
      ((∀ v ∈ bufs, v.InBuffer h'.buf) ↔ RequestHeadFits h) := by
  obtain ⟨t₀, blk₀, rest₀, hUnread₀, hRead₀⟩ := hAccepts.text hState (by omega)
  obtain ⟨chains', bufs, last, hConstruct, hVec, hIff⟩ := hAccepts.slices hState hStart hSize chains hUnread₀ hRead₀
  refine ⟨chains', bufs, last, hConstruct, hVec, ?_, ?_⟩
  · intro hIn
    obtain ⟨⟨hUri, hVersion⟩, hRoom⟩ := hIff.mp hIn
    exact ⟨t₀, blk₀, rest₀, hUnread₀, hRead₀, hUri, hVersion, hRoom⟩
  · rintro ⟨t, blk, rest, hUnread, hRead, hUri, hVersion, hRoom⟩
    obtain ⟨chains'', bufs', last', hConstruct', hVec', hIff'⟩ :=
      hAccepts.slices hState hStart hSize chains hUnread hRead
    rw [hConstruct] at hConstruct'
    cases hConstruct'
    rw [hVec] at hVec'
    cases hVec'
    exact hIff'.mpr ⟨⟨hUri, hVersion⟩, hRoom⟩

/-- The slice of a status line whose end pointer is still the old one. -/
def oldStatusSlice (h : Head) : Iovec :=
  LtString.widen ⟨ptrDiff h.req.status.end_ h.buf.pos, h.buf.pos⟩ 2

def ResponseHeadFits (h : Head) : Prop :=
  ∃ (line : List UInt8) (blk : HeaderBlock) (rest : List UInt8),
    h.buf.unread h.mem = line ++ (lf :: (blk.bytes ++ rest)) ∧ lf ∉ line ∧
    blk.Readable h.req.upstream ∧
    ((line.getLast? = some cr ∨ h.req.status.end_ = 0) ∨ (oldStatusSlice h).InBuffer h.buf) ∧
    RoomBehind h.buf.last (h.buf.pos + line.length + 1) blk.lines

/-- An accepted response head is a line, read up to its line feed, and a header block. -/
theorem AcceptsResponse.text {h h' : Head} (hAccepts : AcceptsResponse h h') (hState : h.req.state = 0)
    (hSize : h.buf.last - h.buf.pos < 2 ^ 31) :
    ∃ (line : List UInt8) (blk : HeaderBlock) (rest : List UInt8),
      h.buf.unread h.mem = line ++ (lf :: (blk.bytes ++ rest)) ∧ lf ∉ line ∧
      blk.Readable h.req.upstream := by
  obtain ⟨r, b, status, hParse, hReturns⟩ := hAccepts
  obtain ⟨x, q, z, hRead, hLow, hHigh, rfl, rfl, -, -⟩ := statusRead_of_lok hState hParse
  obtain ⟨blk, rest, hBlock, hHeaders⟩ := headersRead_of_returns
    (h := { h with
      req := storeStatusLine { q with state := 0 } status
      buf := { h.buf with pos := x + 1 } })
    rfl (by simp only; omega) hReturns
  have hTail : slice h.mem (x + 1) h.buf.last = blk.bytes ++ rest := hBlock
  refine ⟨slice h.mem h.buf.pos x, blk, rest, ?_, ?_, ?_⟩
  · rw [← hTail, ← hRead.lf_at, ← slice_cons hHigh, slice_append hLow (by omega)]
    rfl
  · rw [mem_slice]
    rintro ⟨y, hy, hyx, hLf⟩
    exact hRead.plain y hy hyx hLf
  · have hReadable := hHeaders.readable
    have hUpstream : (storeStatusLine { q with state := 0 } status).upstream = h.req.upstream :=
      hRead.upstream
    rwa [hUpstream] at hReadable

/-- What is left of an accepted response head, whose text is known. The end of the
status line is set only where it ends in CR, or where it was not set before. -/
theorem AcceptsResponse.read {h h' : Head} {line : List UInt8} {blk : HeaderBlock} {rest : List UInt8}
    (hAccepts : AcceptsResponse h h') (hState : h.req.state = 0)
    (hSize : h.buf.last - h.buf.pos < 2 ^ 31)
    (hUnread : h.buf.unread h.mem = line ++ (lf :: (blk.bytes ++ rest))) (hPlain : lf ∉ line)
    (hRead : blk.Readable h.req.upstream) :
    ∃ r c status, ngxHttpParseStatusLine h.mem h.req h.buf h.req.status = (.lok, r, c, status) ∧
      line ≠ [] ∧ r.upstream = h.req.upstream ∧ r.requestStart = h.buf.pos ∧
      status.end_ = (if line.getLast? = some cr then h.buf.pos + line.length - 1
        else if h.req.status.end_ = 0 then h.buf.pos + line.length else h.req.status.end_) ∧
      HeadersRead { h with
          req := storeStatusLine r status
          buf := { h.buf with pos := h.buf.pos + line.length + 1 } } h'
        (h.buf.pos + line.length + 1) blk := by
  obtain ⟨r, b, status, hParse, hReturns⟩ := hAccepts
  obtain ⟨x, q, z, hStatus, hLow, hHigh, rfl, rfl, hEnd, hFirst⟩ := statusRead_of_lok hState hParse
  obtain ⟨hLine, hTail⟩ := slice_eq_append hUnread
  obtain ⟨-, -, hRest⟩ := slice_eq_cons hTail
  have hx := statusRead_eq hUnread hPlain hLow hStatus
  have hBehind := hStatus.behind
  have hNe : line ≠ [] := by
    rintro rfl
    simp only [List.length_nil] at hx
    omega
  have hLast : line.getLast? = some (h.mem (x - 1)) := by
    obtain ⟨y, rfl⟩ := Nat.exists_eq_add_of_le' (by omega : 1 ≤ x)
    rw [← hLine, ← hx, slice_succ (by omega), List.getLast?_append, List.getLast?_singleton]
    rfl
  have hLength := congrArg List.length hUnread
  simp only [LtBuffer.unread, length_slice, List.length_append, List.length_cons] at hLength
  have hUpstream : (storeStatusLine { q with state := 0 } status).upstream = h.req.upstream :=
    hStatus.upstream
  rw [← hx] at hRest ⊢
  obtain ⟨h'', hReturns', hHeaders⟩ := returns_of_block
    (h := { h with
      req := storeStatusLine { q with state := 0 } status
      buf := { h.buf with pos := x + 1 } })
    blk rfl hRest (by rwa [hUpstream]) (by omega)
  rw [← hReturns.unique hReturns'] at hHeaders
  refine ⟨_, _, _, hParse, hNe, hStatus.upstream, hStatus.start_eq, ?_, hHeaders⟩
  rw [hEnd, hStatus.end_eq, hLast]
  simp only [Option.some.injEq]
  by_cases hCr : h.mem (x - 1) = cr
  · have hTwo : x - 1 ≠ h.buf.pos := by
      intro hSame
      rw [hSame, hFirst] at hCr
      exact absurd hCr (by decide)
    rw [if_pos hCr, if_pos hCr, if_neg (by omega)]
  · rw [if_neg hCr, if_neg hCr]

/-- The slices of an accepted response head, whose text is known. There must be a
header, as the builder reads through the head of the list without a test. -/
theorem AcceptsResponse.slices {h h' : Head} {line : List UInt8} {blk : HeaderBlock} {rest : List UInt8}
    (hAccepts : AcceptsResponse h h') (hState : h.req.state = 0) (hStart : h.buf.start ≤ h.buf.pos)
    (hSize : h.buf.last - h.buf.start < 2 ^ 31) (hHeader : h'.req.elementHead ≠ none)
    (chains : Arena LtChain) (hUnread : h.buf.unread h.mem = line ++ (lf :: (blk.bytes ++ rest)))
    (hPlain : lf ∉ line) (hRead : blk.Readable h.req.upstream) :
    ∃ chains' bufs last, constructResponseChains h' chains = some (chains.fresh, chains') ∧
      outVec chains' chains.fresh = some (bufs, last) ∧
      ((∀ v ∈ bufs, v.InBuffer h'.buf) ↔
        ((line.getLast? = some cr ∨ h.req.status.end_ = 0) ∨ (oldStatusSlice h).InBuffer h.buf) ∧
        RoomBehind h.buf.last (h.buf.pos + line.length + 1) blk.lines) := by
  obtain ⟨r, c, status, -, hNe, hUpstream, hFirst, hEnd, hHeaders⟩ :=
    hAccepts.read hState (by omega) hUnread hPlain hRead
  have hFields : lineElements (h.buf.pos + line.length + 1) blk.lines ≠ [] := by
    intro hEmpty
    rw [hHeaders.list.head, if_pos hEmpty] at hHeader
    exact hHeader rfl
  obtain ⟨chains', hConstruct, hChain⟩ := constructResponseChains_built chains hHeaders.list hFields
  refine ⟨chains', _, _, hConstruct, hChain.outVec (by simp [responseIovecs]), ?_⟩
  have hSame : h'.req.requestLine = ⟨ptrDiff status.end_ h.buf.pos, h.buf.pos⟩ := by
    have hField := congrArg RequestT.requestLine hHeaders.req
    rw [← hFirst]
    exact hField
  have hPos := List.length_pos_iff.mpr hNe
  have hLength := congrArg List.length hUnread
  have hBlock : 0 < (lineBreak blk.blank).length := by
    rw [lineBreak_length]
    split_ifs <;> omega
  have hBlockLength : blk.bytes.length = (HeaderBlock.linesBytes blk.lines).length +
      (blk.skip.length + (lineBreak blk.blank).length) := by
    simp only [HeaderBlock.bytes, List.length_append]
  simp only [LtBuffer.unread, length_slice, List.length_append, List.length_cons] at hLength
  have hElements := elementIovecs_inBuffer (b := h.buf) (p := h.buf.pos + line.length + 1) blk.lines
    (by omega) (by omega) hSize
  have hLineSlice : (LtString.widen ⟨ptrDiff status.end_ h.buf.pos, h.buf.pos⟩ 2).InBuffer h.buf ↔
      (line.getLast? = some cr ∨ h.req.status.end_ = 0) ∨ (oldStatusSlice h).InBuffer h.buf := by
    rw [hEnd]
    by_cases hCr : line.getLast? = some cr
    · rw [if_pos hCr, ptrDiff_of_le (by omega) (by omega), widen_of_bounds _ (by omega) (by omega)]
      simp only [hCr, true_or, iff_true, Iovec.InBuffer]
      omega
    by_cases hZero : h.req.status.end_ = 0
    · rw [if_neg hCr, if_pos hZero, ptrDiff_of_le (by omega) (by omega),
        widen_of_bounds _ (by omega) (by omega)]
      simp only [hZero, or_true, true_or, iff_true, Iovec.InBuffer]
      omega
    · rw [if_neg hCr, if_neg hZero]
      simp only [hCr, hZero, or_self, false_or, oldStatusSlice]
  rw [← hLineSlice, ← hElements, hHeaders.buf, responseIovecs, hSame, List.forall_mem_append,
    List.forall_mem_singleton]
  exact Iff.rfl

/-- The slices of an accepted response head with a valid header. -/
theorem responseSlices_inBuffer_iff {h h' : Head} (hAccepts : AcceptsResponse h h')
    (hState : h.req.state = 0) (hStart : h.buf.start ≤ h.buf.pos)
    (hSize : h.buf.last - h.buf.start < 2 ^ 31) (hHeader : h'.req.elementHead ≠ none)
    (chains : Arena LtChain) :
    ∃ chains' bufs last, constructResponseChains h' chains = some (chains.fresh, chains') ∧
      outVec chains' chains.fresh = some (bufs, last) ∧
      ((∀ v ∈ bufs, v.InBuffer h'.buf) ↔ ResponseHeadFits h) := by
  obtain ⟨line₀, blk₀, rest₀, hUnread₀, hPlain₀, hRead₀⟩ := hAccepts.text hState (by omega)
  obtain ⟨chains', bufs, last, hConstruct, hVec, hIff⟩ :=
    hAccepts.slices hState hStart hSize hHeader chains hUnread₀ hPlain₀ hRead₀
  refine ⟨chains', bufs, last, hConstruct, hVec, ?_, ?_⟩
  · intro hIn
    obtain ⟨hLine, hRoom⟩ := hIff.mp hIn
    exact ⟨line₀, blk₀, rest₀, hUnread₀, hPlain₀, hRead₀, hLine, hRoom⟩
  · rintro ⟨line, blk, rest, hUnread, hPlain, hRead, hLine, hRoom⟩
    obtain ⟨chains'', bufs', last', hConstruct', hVec', hIff'⟩ :=
      hAccepts.slices hState hStart hSize hHeader chains hUnread hPlain hRead
    rw [hConstruct] at hConstruct'
    cases hConstruct'
    rw [hVec] at hVec'
    cases hVec'
    exact hIff'.mpr ⟨hLine, hRoom⟩

theorem break_of_mem_nil : ∀ c ∈ ([] : List UInt8), c = cr ∨ c = lf := List.forall_mem_nil _

/-- The request line `GET / HTTP/1.0`. -/
def plainLine (crlf : Bool) : RequestLineText where
  skip := []
  method := ofChars ['G', 'E', 'T']
  gap := 0
  target := .path none [] .nil
  space := 1
  version := some ⟨one, [], zero, [], 0, by decide, by simp, by decide, by simp⟩
  crlf := crlf
  skip_break := break_of_mem_nil
  method_ne := by decide
  method_byte := by
    simp only [ofChars, List.map_cons, List.map_nil, List.forall_mem_cons]
    exact ⟨by decide, by decide, by decide, List.forall_mem_nil _⟩
  space_pos := by simp

/-- A whole request of one header line, received by a zeroed request. -/
def plainRequest (crlf : Bool) : Head := .received ((plainLine crlf).bytes ++ (plainBlock crlf).bytes)

theorem plainLine_unread (crlf : Bool) (blk : HeaderBlock) :
    (Head.received ((plainLine crlf).bytes ++ blk.bytes)).buf.unread
      (Head.received ((plainLine crlf).bytes ++ blk.bytes)).mem =
    (plainLine crlf).bytes ++ (blk.bytes ++ []) := by
  rw [Head.received_unread, List.append_nil]

theorem plainLine_accepted (crlf : Bool) {blk : HeaderBlock} (hRead : blk.Readable 0)
    (hBound : blk.bytes.length < 2 ^ 31) :
    ∃ h', AcceptsRequest (.received ((plainLine crlf).bytes ++ blk.bytes)) h' := by
  have hUnread := plainLine_unread crlf blk
  generalize hHead : Head.received ((plainLine crlf).bytes ++ blk.bytes) = h at hUnread
  have hReq : h.req = {} := by rw [← hHead]; rfl
  obtain ⟨q, hReads, hParse⟩ := ngxHttpParseRequestLine_text (r := h.req) (plainLine crlf) (by rw [hReq])
    hUnread
  have hStored := httpRequestLineParsed_stored
    { h.buf with pos := h.buf.pos + (plainLine crlf).bytes.length } hReads (by cases crlf <;> decide)
  have hDone : (requestLineDone (h.buf.pos + (plainLine crlf).bytes.length - 1) q).1 = .lok := by
    have hMajor : q.httpMajor = 1 := hReads.major
    have hMinor : q.httpMinor = 0 := hReads.minor
    simp only [requestLineDone, hMajor, hMinor]
    rfl
  rw [hDone] at hParse
  obtain ⟨h', hReturns, -⟩ := returns_of_block
    (h := { h with
      req := httpRequestLineParsed
        (requestLineDone (h.buf.pos + (plainLine crlf).bytes.length - 1) q).2
        { h.buf with pos := h.buf.pos + (plainLine crlf).bytes.length }
      buf := { h.buf with pos := h.buf.pos + (plainLine crlf).bytes.length } })
    blk hStored.state (slice_eq_append hUnread).2 (by rwa [hStored.upstream, hReq]) hBound
  exact ⟨h', _, _, hParse, hReturns⟩

theorem plainRequest_unread (crlf : Bool) : (plainRequest crlf).buf.unread (plainRequest crlf).mem =
    (plainLine crlf).bytes ++ ((plainBlock crlf).bytes ++ []) :=
  plainLine_unread crlf _

theorem plainRequest_accepted (crlf : Bool) : ∃ h', AcceptsRequest (plainRequest crlf) h' :=
  plainLine_accepted crlf (plainBlock_readable crlf 0) (by cases crlf <;> decide)

end Leactor
