import Leactor.Http.Relay

/-! Forwarding of a request head: `http_construct_request_chains` sends the method,
the URI and the version as slices of the request line, each with the bytes behind
it, and the headers as a response's. -/
namespace Leactor

open Ascii Scan Loop Memory

def TargetText.relayed : TargetText → TargetText
  | path _ rest hRest => path none rest hRest
  | bare authority => bare authority

/-- The request line that the chain makes of one with a path and a version. -/
def RequestLineText.relayed (t : RequestLineText) : RequestLineText where
  skip := []
  method := t.method
  gap := 0
  target := t.target.relayed
  space := 1
  version := t.version
  crlf := t.crlf
  skip_break := break_of_mem_nil
  method_ne := t.method_ne
  method_byte := t.method_byte
  space_pos _ := Nat.one_pos

theorem TargetText.relayed_uri (t : TargetText) : t.relayed.uri = t.uri := by
  cases t <;> rfl

theorem TargetText.relayed_marked (t : TargetText) : t.relayed.Marked ↔ t.Marked := by
  cases t <;> rfl

theorem TargetText.relayed_path (t : TargetText) (h : t.HasPath) : t.relayed.HasPath := by
  cases t with
  | path => trivial
  | bare => exact h

theorem RequestLineText.relayed_bytes {t : RequestLineText} (hPath : t.target.HasPath) :
    t.relayed.bytes =
      (t.method ++ [sp]) ++ ((t.target.uri ++ [sp]) ++ (versionBytes t.version ++ lineBreak t.crlf)) := by
  obtain ⟨skip, method, gap, target, space, version, crlf, _, _, _, _⟩ := t
  cases target with
  | path authority rest hRest =>
      simp [bytes, front, opening, relayed, TargetText.relayed, TargetText.bytes, TargetText.uri,
        authorityBytes]
  | bare authority => exact False.elim hPath

theorem RequestLineText.relayed_length (t : RequestLineText) (hPath : t.target.HasPath)
    (hVersion : t.version.isSome) : t.relayed.bytes.length ≤ t.bytes.length := by
  obtain ⟨hOpening, -, hFront, hBytes⟩ := t.length_bytes
  have hSpace := t.space_pos (Or.inl hVersion)
  have hUri := t.target.uri_le
  rw [relayed_bytes hPath]
  simp only [List.length_append, List.length_singleton]
  omega

theorem RequestLineText.method_slice {mem : Mem} {p : Nat} {t : RequestLineText}
    (hMem : slice mem p (p + t.bytes.length) = t.bytes) :
    slice mem (p + t.skip.length) (p + t.skip.length + t.method.length) = t.method := by
  have hText : slice mem p (p + t.bytes.length) = t.skip ++ (t.method ++ (List.replicate (t.gap + 1) sp ++
      (t.target.bytes ++ (List.replicate t.space sp ++ (versionBytes t.version ++ lineBreak t.crlf))))) := by
    rw [hMem]
    simp [bytes, front, opening]
  exact (slice_eq_append (slice_eq_append hText).2).1

/-- The three slices of a request line with a path and a version: the method and the URI
with the space behind each, and the protocol with the end of the line. -/
theorem RequestLineText.slices {mem : Mem} {p : Nat} {t : RequestLineText} (hPath : t.target.HasPath)
    (hVersion : t.version.isSome) (hMem : slice mem p (p + t.bytes.length) = t.bytes) :
    slice mem (p + t.skip.length) (p + t.skip.length + (t.method.length + 1)) = t.method ++ [sp] ∧
      slice mem (p + t.opening.length + t.target.uriOffset)
        (p + t.opening.length + t.target.uriOffset + (t.target.uri.length + 1)) = t.target.uri ++ [sp] ∧
      slice mem (p + t.front.length) (p + t.bytes.length) = versionBytes t.version ++ lineBreak t.crlf := by
  have hSpace := t.space_pos (Or.inl hVersion)
  obtain ⟨k, hk⟩ := Nat.exists_eq_add_of_le' hSpace
  refine ⟨?_, ?_, ?_⟩
  · have hText : slice mem p (p + t.bytes.length) = t.skip ++ ((t.method ++ [sp]) ++
        (List.replicate t.gap sp ++ (t.target.bytes ++ (List.replicate t.space sp ++
          (versionBytes t.version ++ lineBreak t.crlf))))) := by
      rw [hMem]
      simp [bytes, front, opening, List.replicate_succ]
    have hFirst := (slice_eq_append (slice_eq_append hText).2).1
    rwa [List.length_append, List.length_singleton] at hFirst
  · obtain ⟨front, hTarget, hOffset⟩ : ∃ front, t.target.bytes = front ++ t.target.uri ∧
        front.length = t.target.uriOffset := by
      cases hCase : t.target with
      | path authority rest hRest => exact ⟨authorityBytes authority, rfl, rfl⟩
      | bare authority =>
          rw [hCase] at hPath
          exact False.elim hPath
    have hText : slice mem p (p + t.bytes.length) = (t.opening ++ front) ++ ((t.target.uri ++ [sp]) ++
        (List.replicate k sp ++ (versionBytes t.version ++ lineBreak t.crlf))) := by
      rw [hMem]
      simp [bytes, RequestLineText.front, hTarget, hk, List.replicate_succ]
    have hUri := (slice_eq_append (slice_eq_append hText).2).1
    rwa [List.length_append, List.length_append, List.length_singleton, hOffset, ← Nat.add_assoc p] at hUri
  · exact (slice_eq_append (hMem.trans rfl)).2

structure SameRequest (h g : Head) : Prop where
  method : g.req.method = h.req.method
  methodName : g.req.methodName.bytes g.mem = h.req.methodName.bytes h.mem
  uri : g.req.uri.bytes g.mem = h.req.uri.bytes h.mem
  version : g.req.httpVersion = h.req.httpVersion
  fields : ∃ fields, headerFields h = some fields ∧ headerFields g = some fields

/-- Wherever the bytes `w` are received, the parsers accept them up to their end, as
the request `h`. -/
def ForwardsRequest (h : Head) (w : List UInt8) : Prop :=
  ∀ g : Head, g.req = {} → g.buf.unread g.mem = w →
    ∃ g', AcceptsRequest g g' ∧ g'.buf.pos = g.buf.last ∧ SameRequest h g'

/-- The request as the builder expects it: a path that needs no decoding, a version,
CR LF, and a relayable block. Without headers two bare line feeds do. -/
def RequestLayout (h : Head) : Prop :=
  ∃ (t : RequestLineText) (blk : HeaderBlock) (rest : List UInt8),
    h.buf.unread h.mem = t.bytes ++ (blk.bytes ++ rest) ∧ t.target.HasPath ∧ ¬ t.target.Marked ∧
      t.version.isSome ∧ blk.Readable 0 ∧
      (t.crlf = true ∧ blk.Relayable ∨ t.crlf = false ∧ blk.bytes = [lf])

/-- `r->http_version` behind a line; 9 is the minor version of a line without one. -/
def RequestLineText.versionNumber (t : RequestLineText) : Int :=
  match t.version with
  | some v => wrap32 (v.majorValue * 1000 + v.minorValue)
  | none => 9

/-- The method behind the line at `p`. An unknown method leaves the old one. -/
def RequestLineText.methodAt (t : RequestLineText) (mem : Mem) (p old : Nat) : Nat :=
  (methodNumber mem (p + t.skip.length) (p + t.skip.length + t.method.length)).getD old

/-- What a request `r₀` keeps of the line at `p`, if it has no mark and no end of its own. -/
structure KeepsLine (mem : Mem) (t : RequestLineText) (p : Nat) (r₀ r : RequestT) : Prop where
  method : r.method = t.methodAt mem p r₀.method
  methodName : r.methodName = ⟨t.method.length, p + t.skip.length⟩
  uri : r.uri = ⟨t.target.uri.length, p + t.opening.length + t.target.uriOffset⟩
  version : r.httpVersion = t.versionNumber
  protocol : r.httpProtocol.widen 2 =
    ⟨p + t.front.length, t.bytes.length - t.front.length + if t.crlf then 0 else 1⟩

theorem requestLineDone_version {mem : Mem} {t : RequestLineText} {p : Nat} {r q : RequestT} (x : Nat)
    (hReads : ReadsRequestLine mem t p r q) (hVersion : t.version.isSome) :
    (requestLineDone x q).2.httpVersion = t.versionNumber := by
  rw [requestLineDone_snd, hReads.major, hReads.minor, RequestLineText.versionNumber]
  cases hCase : t.version with
  | none =>
      rw [hCase] at hVersion
      exact nomatch hVersion
  | some v => rfl

theorem requestLineDone_lok {mem : Mem} {t : RequestLineText} {p : Nat} {r q : RequestT} (x : Nat)
    (hReads : ReadsRequestLine mem t p r q) (hVersion : t.version.isSome) :
    (requestLineDone x q).1 = .lok ↔ ¬ (t.versionNumber = 9 ∧ q.method ≠ ngxHttpGet) := by
  have hNumber : wrap32 (q.httpMajor * 1000 + q.httpMinor) = t.versionNumber :=
    (congrArg RequestT.httpVersion (requestLineDone_snd x q)).symm.trans
      (requestLineDone_version x hReads hVersion)
  simp only [requestLineDone]
  rw [hNumber]
  by_cases hOld : t.versionNumber = 9 ∧ q.method ≠ ngxHttpGet
  · rw [if_pos hOld]
    simp [hOld]
  · rw [if_neg hOld]
    exact ⟨fun _ => hOld, fun _ => rfl⟩

/-- The request behind the line and the header loop. The loop writes the fields of
headers only, so that the slices of the line are still there when the chain is built. -/
theorem KeepsLine.of_parsed {h h' : Head} {t : RequestLineText} {blk : HeaderBlock} {q : RequestT}
    (hMarked : ¬ (t.target.Marked ∨ h.req.UriMarked)) (hEnd : t.crlf = true ∨ h.req.requestEnd = 0)
    (hVersion : t.version.isSome) (hBound : t.bytes.length < 2 ^ 31)
    (hReads : ReadsRequestLine h.mem t h.buf.pos h.req q)
    (hHeaders : HeadersRead { h with
        req := httpRequestLineParsed (requestLineDone (h.buf.pos + t.bytes.length - 1) q).2
          { h.buf with pos := h.buf.pos + t.bytes.length }
        buf := { h.buf with pos := h.buf.pos + t.bytes.length } } h'
      (h.buf.pos + t.bytes.length) blk) : KeepsLine h.mem t h.buf.pos h.req h'.req := by
  have hStored := httpRequestLineParsed_stored { h.buf with pos := h.buf.pos + t.bytes.length } hReads hBound
  have hSame : ∀ {α : Type} (f : RequestT → α), (∀ r : RequestT, f r.forgetHead = f r) →
      f h'.req = f (httpRequestLineParsed (requestLineDone (h.buf.pos + t.bytes.length - 1) q).2
        { h.buf with pos := h.buf.pos + t.bytes.length }) := by
    intro α f hf
    have hField := congrArg f hHeaders.req
    rwa [hf, hf] at hField
  have hLine : ∀ (r : RequestT) (b : LtBuffer), (httpRequestLineParsed r b).method = r.method ∧
      (httpRequestLineParsed r b).httpVersion = r.httpVersion := by
    intro r b
    simp only [httpRequestLineParsed]
    split_ifs <;> exact ⟨rfl, rfl⟩
  refine ⟨?_, ?_, ?_, ?_, ?_⟩
  · rw [hSame RequestT.method fun _ => rfl, (hLine _ _).1, requestLineDone_snd]
    exact hReads.method
  · rw [hSame RequestT.methodName fun _ => rfl, hStored.methodName]
  · rw [hSame RequestT.uri fun _ => rfl, hStored.uri, RequestLineText.uriAt, if_neg hMarked]
  · rw [hSame RequestT.httpVersion fun _ => rfl, (hLine _ _).2, requestLineDone_version _ hReads hVersion]
  · obtain ⟨hOpening, hMethod, hFront, hBytes⟩ := t.length_bytes
    have hBreak := lineBreak_length t.crlf
    rw [hSame RequestT.httpProtocol fun _ => rfl, hStored.httpProtocol, RequestLineText.versionAt, if_pos hVersion,
      RequestLineText.endAt]
    cases hCr : t.crlf with
    | true =>
        rw [hCr] at hBreak hBytes
        rw [if_pos rfl] at hBreak
        simp only [if_true]
        rw [ptrDiff_of_le (by omega) (by omega), widen_of_bounds _ (by omega) (by omega), Iovec.mk.injEq]
        exact ⟨rfl, by omega⟩
    | false =>
        rw [hCr] at hBreak hBytes
        rw [if_neg Bool.false_ne_true] at hBreak
        rw [if_neg Bool.false_ne_true, if_pos (hEnd.resolve_left (by rw [hCr]; exact Bool.false_ne_true)),
          if_neg Bool.false_ne_true]
        rw [ptrDiff_of_le (by omega) (by omega), widen_of_bounds _ (by omega) (by omega), Iovec.mk.injEq]
        exact ⟨rfl, by omega⟩

/-- What the slices of the method and of the URI hold. -/
theorem KeepsLine.slices {mem m : Mem} {t : RequestLineText} {p : Nat} {r₀ r : RequestT}
    (hKeeps : KeepsLine mem t p r₀ r) (hPath : t.target.HasPath) (hVersion : t.version.isSome)
    (hBound : t.bytes.length + 1 < 2 ^ 31) (hMem : slice m p (p + t.bytes.length) = t.bytes) :
    slice m (r.methodName.widen 1).base ((r.methodName.widen 1).base + (r.methodName.widen 1).len) =
        t.method ++ [sp] ∧
      slice m (r.uri.widen 1).base ((r.uri.widen 1).base + (r.uri.widen 1).len) = t.target.uri ++ [sp] ∧
      r.methodName.bytes m = t.method ∧ r.uri.bytes m = t.target.uri := by
  obtain ⟨hOpening, hMethod, hFront, hBytes⟩ := t.length_bytes
  have hUri := t.target.uri_le
  obtain ⟨hMethodSlice, hUriSlice, -⟩ := RequestLineText.slices hPath hVersion hMem
  have hMethodWiden : r.methodName.widen 1 = ⟨p + t.skip.length, t.method.length + 1⟩ := by
    rw [hKeeps.methodName, widen_of_bounds _ (by omega) (by omega)]
    rfl
  have hUriWiden : r.uri.widen 1 =
      ⟨p + t.opening.length + t.target.uriOffset, t.target.uri.length + 1⟩ := by
    rw [hKeeps.uri, widen_of_bounds _ (by omega) (by omega)]
    rfl
  rw [hMethodWiden, hUriWiden]
  refine ⟨hMethodSlice, hUriSlice, ?_, ?_⟩
  · rw [LtString.bytes, hKeeps.methodName, Int.toNat_natCast, slice_take (Nat.le_succ _), hMethodSlice,
      List.take_left' rfl]
  · rw [LtString.bytes, hKeeps.uri, Int.toNat_natCast, slice_take (Nat.le_succ _), hUriSlice,
      List.take_left' rfl]

/-- The three slices of a line that ends in CR LF. -/
theorem HeadersRead.lineBytes {h h' : Head} {mem : Mem} {t : RequestLineText} {rest : List UInt8}
    {p q : Nat} {blk : HeaderBlock} {r₀ : RequestT} (hRead : HeadersRead h h' (p + t.bytes.length) blk)
    (hKeeps : KeepsLine mem t p r₀ h'.req) (hText : slice h.mem p q = t.bytes ++ rest) (hPath : t.target.HasPath)
    (hVersion : t.version.isSome) (hBound : t.bytes.length + 1 < 2 ^ 31)
    (hCr : t.crlf = true) :
    iovBytes h'.mem [h'.req.methodName.widen 1, h'.req.uri.widen 1, h'.req.httpProtocol.widen 2] =
      t.relayed.bytes := by
  have hFront : slice h'.mem p (p + t.bytes.length) = t.bytes :=
    (hRead.front (Nat.le_refl _)).trans (slice_eq_append hText).1
  obtain ⟨hMethod, hUri, -, -⟩ := hKeeps.slices hPath hVersion hBound hFront
  have hEnd := (RequestLineText.slices hPath hVersion hFront).2.2
  obtain ⟨-, -, -, hBytes⟩ := t.length_bytes
  rw [iovBytes_cons, iovBytes_cons, iovBytes_cons, hMethod, hUri, hKeeps.protocol, hCr, if_pos rfl,
    RequestLineText.relayed_bytes hPath]
  simp only
  rw [show p + t.front.length + (t.bytes.length - t.front.length + 0) = p + t.bytes.length by omega, hEnd]
  simp [iovBytes]

/-- The slices of a request that is laid out as expected: the line with single spaces,
and a block with the same fields. -/
theorem HeadersRead.requestBytes {h h' : Head} {t : RequestLineText} {rest : List UInt8} {p : Nat}
    {blk : HeaderBlock} {buf : LtBuffer} {r r₀ : RequestT} (hKeeps : KeepsLine h.mem t p r₀ h'.req)
    (hRead : HeadersRead { h with req := r, buf := { buf with pos := p + t.bytes.length } } h'
      (p + t.bytes.length) blk)
    (hText : slice h.mem p buf.last = t.bytes ++ (blk.bytes ++ rest)) (hPath : t.target.HasPath)
    (hVersion : t.version.isSome) (hReadable : blk.Readable 0) (hSize : buf.last - p < 2 ^ 31)
    (hLayout : t.crlf = true ∧ blk.Relayable ∨ t.crlf = false ∧ blk.bytes = [lf]) :
    ∃ blk' : HeaderBlock, blk'.Readable 0 ∧ blk'.bytes.length ≤ 2 * blk.bytes.length ∧
      lineFields blk'.lowered.lines = lineFields blk.lowered.lines ∧
      iovBytes h'.mem (requestIovecs h'.req (lineElements (p + t.bytes.length) blk.lines)) =
        t.relayed.bytes ++ blk'.bytes := by
  have hLength := congrArg List.length hText
  simp only [length_slice, List.length_append] at hLength
  have hBlockPos : 0 < blk.bytes.length := by
    cases hBlank : blk.blank <;> simp [HeaderBlock.bytes, lineBreak, hBlank]
  obtain ⟨hLine, hBlock⟩ := slice_eq_append hText
  rcases hLayout with ⟨hCr, hRelay⟩ | ⟨hCr, hBare⟩
  · refine ⟨blk.relayed, HeaderBlock.relayed_readable hReadable, blk.relayed_length,
      lineFields_relayLines blk.lines, ?_⟩
    rw [requestIovecs, iovBytes, List.flatMap_append, ← iovBytes, ← iovBytes,
      hRead.elementBytes hBlock hRelay (by omega)]
    rw [hRead.lineBytes hKeeps hText hPath hVersion (by omega) hCr]
  · have hNone : blk.lines = [] := by
      have hOne := congrArg List.length hBare
      cases hLines : blk.lines with
      | nil => rfl
      | cons e lines =>
          obtain ⟨skip, l⟩ := e
          have hPos := l.length_bytes_pos
          have hBlank := lineBreak_length blk.blank
          rw [HeaderBlock.bytes, hLines, HeaderBlock.linesBytes_cons] at hOne
          simp only [List.length_append, List.length_singleton] at hOne
          split_ifs at hBlank <;> omega
    refine ⟨blk, hReadable, by omega, rfl, ?_⟩
    have hFront : slice h'.mem p (p + t.bytes.length) = t.bytes :=
      (hRead.front (Nat.le_refl _)).trans hLine
    obtain ⟨hMethod, hUri, -, -⟩ := hKeeps.slices hPath hVersion (by omega) hFront
    have hEnd := (RequestLineText.slices hPath hVersion hFront).2.2
    obtain ⟨-, -, -, hBytes⟩ := t.length_bytes
    have hLf : h'.mem (p + t.bytes.length) = lf := by
      rw [hBare] at hBlock
      rw [hRead.mem, hNone]
      exact (slice_eq_cons hBlock).2.1
    rw [hNone, requestIovecs, lineElements, elementIovecs.eq_1, List.append_nil, iovBytes_cons, iovBytes_cons,
      iovBytes_cons, hMethod, hUri, hKeeps.protocol, RequestLineText.relayed_bytes hPath, hCr,
      if_neg Bool.false_ne_true]
    simp only
    rw [show p + t.front.length + (t.bytes.length - t.front.length + 1) = p + t.bytes.length + 1 by omega,
      slice_succ (by omega), hEnd, hLf, hCr, hBare]
    simp [iovBytes]

/-- A request that is laid out as expected is forwarded: read again, the bytes of its
chain are the same request, and end where it does. The chain pool may hold any other
chains. -/
theorem request_forwarded {h h' : Head} (hZero : h.req = {}) (hSize : h.buf.last - h.buf.pos < 2 ^ 30)
    (hAccepts : AcceptsRequest h h') (hLayout : RequestLayout h) (chains : Arena LtChain) :
    ∃ chains' bufs last, httpConstructRequestChains h' chains = some (chains.fresh, chains') ∧
      outVec chains' chains.fresh = some (bufs, last) ∧ ForwardsRequest h' (iovBytes h'.mem bufs) := by
  obtain ⟨t, blk, rest, hUnread, hPath, hMarked, hVersion, hRead, hLayout⟩ := hLayout
  have hLength := congrArg List.length hUnread
  simp only [LtBuffer.unread, length_slice, List.length_append] at hLength
  obtain ⟨q, hReads, hDone, hHeaders⟩ := hAccepts.parsed (by rw [hZero]) (by omega) hUnread (by rwa [hZero])
  have hUnmarked : ∀ r : RequestT, r = {} → ¬ r.UriMarked := by
    rintro r rfl
    decide
  have hKeeps := KeepsLine.of_parsed (not_or.mpr ⟨hMarked, hUnmarked _ hZero⟩) (Or.inr (by rw [hZero]))
    hVersion (by omega) hReads hHeaders
  obtain ⟨chains', hConstruct, hChain⟩ := httpConstructRequestChains_built chains hHeaders.list
  refine ⟨chains', _, _, hConstruct, hChain.outVec (by simp [requestIovecs]), ?_⟩
  obtain ⟨blk', hRead', hShort, hFields, hBytes⟩ :=
    HeadersRead.requestBytes hKeeps hHeaders hUnread hPath hVersion hRead (by omega) hLayout
  rw [hBytes]
  intro g hg hText
  have hLength' := congrArg List.length hText
  simp only [LtBuffer.unread, length_slice, List.length_append] at hLength'
  have hRelayed := t.relayed_length hPath hVersion
  have hMarked' : ¬ t.relayed.target.Marked := mt t.target.relayed_marked.mp hMarked
  have hPath' : t.relayed.target.HasPath := t.target.relayed_path hPath
  obtain ⟨q', hReads', hParse'⟩ := ngxHttpParseRequestLine_text (r := g.req) t.relayed (by rw [hg]) hText
  have hLine := (slice_eq_append hUnread).1
  have hLine' := (slice_eq_append hText).1
  -- the method stands in both places
  have hMethod : t.relayed.methodAt g.mem g.buf.pos 0 = t.methodAt h.mem h.buf.pos 0 := by
    have hSame := (RequestLineText.method_slice hLine').trans (RequestLineText.method_slice hLine).symm
    exact congrArg (fun m => m.getD 0) (methodNumber_moved hSame)
  have hDone' : (requestLineDone (g.buf.pos + t.relayed.bytes.length - 1) q').1 = .lok := by
    rw [requestLineDone_lok _ hReads hVersion, hReads.method, hZero] at hDone
    rw [requestLineDone_lok _ hReads' hVersion, hReads'.method, hg]
    intro hOld
    exact hDone ⟨hOld.1, fun hGet => hOld.2 (hMethod.trans hGet)⟩
  have hStored := httpRequestLineParsed_stored
    { g.buf with pos := g.buf.pos + t.relayed.bytes.length } hReads' (by omega)
  rw [hDone'] at hParse'
  obtain ⟨g', hReturns, hHeaders'⟩ := @returns_of_block
    { g with
      req := httpRequestLineParsed (requestLineDone (g.buf.pos + t.relayed.bytes.length - 1) q').2
        { g.buf with pos := g.buf.pos + t.relayed.bytes.length }
      buf := { g.buf with pos := g.buf.pos + t.relayed.bytes.length } }
    [] blk' hStored.state ((slice_eq_append hText).2.trans (List.append_nil _).symm)
    (by rw [hStored.upstream, hg]; exact hRead') (by omega)
  have hKeeps' := KeepsLine.of_parsed (not_or.mpr ⟨hMarked', hUnmarked _ hg⟩) (Or.inr (by rw [hg])) hVersion
    (by omega) hReads' hHeaders'
  refine ⟨g', ⟨_, _, hParse', hReturns⟩, ?_, ?_⟩
  · have hPos : 0 < t.relayed.bytes.length := by
      rw [RequestLineText.relayed_bytes hPath]
      simp
    rw [hHeaders'.buf]
    simp only
    omega
  · obtain ⟨-, -, hName, hUri⟩ := hKeeps.slices hPath hVersion (by omega)
      ((hHeaders.front (Nat.le_refl _)).trans hLine)
    obtain ⟨-, -, hName', hUri'⟩ := hKeeps'.slices hPath' hVersion (by omega)
      ((hHeaders'.front (Nat.le_refl _)).trans hLine')
    refine ⟨by rw [hKeeps'.method, hKeeps.method, hZero, hg]; exact hMethod, by rw [hName', hName]; rfl, ?_, ?_, ?_⟩
    · rw [hUri', hUri]
      exact t.target.relayed_uri
    · rw [hKeeps'.version, hKeeps.version]
      rfl
    · refine ⟨_, hHeaders.fields (slice_eq_append hUnread).2, ?_⟩
      rw [hHeaders'.fields ((slice_eq_append hText).2.trans (List.append_nil _).symm), hFields]

theorem request_forwarded_plainRequest : ∃ h' chains' bufs last,
    AcceptsRequest (plainRequest true) h' ∧
      httpConstructRequestChains h' ⟨[], fun _ => ⟨⟨0, 0⟩, none, 0⟩⟩ = some (0, chains') ∧
      outVec chains' 0 = some (bufs, last) ∧ ForwardsRequest h' (iovBytes h'.mem bufs) := by
  obtain ⟨h', hAccepts⟩ := plainRequest_accepted true
  obtain ⟨chains', bufs, last, hForwards⟩ := request_forwarded (h := plainRequest true) rfl (by decide) hAccepts
    ⟨plainLine true, plainBlock true, [], plainRequest_unread true, trivial, by decide, by decide,
      plainBlock_readable true 0, Or.inl ⟨rfl, plainBlock_relayable⟩⟩ ⟨[], fun _ => ⟨⟨0, 0⟩, none, 0⟩⟩
  exact ⟨h', chains', bufs, last, hAccepts, hForwards⟩

/-- A request without headers loses its blank line. -/
theorem not_request_forwarded :
    ¬ ∀ (h h' : Head) (chains : Arena LtChain), h.req = {} → h.buf.last - h.buf.pos < 2 ^ 30 →
      AcceptsRequest h h' →
      ∃ first chains' bufs last, httpConstructRequestChains h' chains = some (first, chains') ∧
        outVec chains' first = some (bufs, last) ∧ ForwardsRequest h' (iovBytes h'.mem bufs) := by
  intro hClaim
  have hRead : HeaderBlock.Readable 0 ⟨[], [], true⟩ := ⟨fun e he => (nomatch he), .nil⟩
  obtain ⟨h', hAccepts⟩ := plainLine_accepted true hRead (by decide)
  have hUnread := plainLine_unread true ⟨[], [], true⟩
  obtain ⟨q, hReads, -, hHeaders⟩ := hAccepts.parsed rfl (by decide) hUnread hRead
  have hKeeps := KeepsLine.of_parsed (by decide) (Or.inl rfl) (by decide) (by decide) hReads hHeaders
  obtain ⟨chains', hConstruct, hChain⟩ :=
    httpConstructRequestChains_built ⟨[], fun _ => ⟨⟨0, 0⟩, none, 0⟩⟩ hHeaders.list
  obtain ⟨first, chains'', bufs, last, hConstruct', hVec, hForwards⟩ :=
    hClaim _ h' ⟨[], fun _ => ⟨⟨0, 0⟩, none, 0⟩⟩ rfl (by decide) hAccepts
  rw [hConstruct] at hConstruct'
  cases hConstruct'
  rw [hChain.outVec (by simp [requestIovecs])] at hVec
  cases hVec
  have hBytes : iovBytes h'.mem (requestIovecs h'.req []) = (plainLine true).relayed.bytes :=
    hHeaders.lineBytes hKeeps hUnread trivial (by decide) (by decide) rfl
  -- behind the sent line nothing is left to read
  obtain ⟨g', ⟨r, b, hParse, hReturns⟩, -⟩ := hForwards (.received (plainLine true).relayed.bytes) rfl
    ((Head.received_unread _).trans hBytes.symm)
  obtain ⟨q', hReads', hLine⟩ := ngxHttpParseRequestLine_text
    (r := (Head.received (plainLine true).relayed.bytes).req) (plainLine true).relayed rfl
    ((Head.received_unread _).trans (List.append_nil _).symm)
  have hState := (httpRequestLineParsed_stored
    { (Head.received (plainLine true).relayed.bytes).buf with
      pos := 1 + (plainLine true).relayed.bytes.length } hReads' (by decide)).state
  rw [hLine] at hParse
  simp only [Prod.mk.injEq] at hParse
  obtain ⟨-, rfl, rfl⟩ := hParse
  exact headerLoop_empty_not_terminates .start hState (Nat.le_refl (1 + (plainLine true).relayed.bytes.length))
    ⟨g', hReturns⟩

end Leactor
