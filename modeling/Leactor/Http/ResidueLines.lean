import Leactor.Http.Residue

/-! The lines that bring an old request to light: two old contents that are parsed alike
on the bytes of every buffer agree on all that is read of them. -/
namespace Leactor

open Ascii Scan Loop Memory

/-- The word `w` at `p` in the memory `m`. -/
def Head.placed (m : Mem) (p : Nat) (w : List UInt8) : Head :=
  { Head.received w with buf := bufferAt p w, mem := place m p w }

theorem Head.placed_small {m : Mem} {p : Nat} {w : List UInt8} (h : w.length ≤ defaultBufSize) :
    (Head.placed m p w).Small := by
  change p + w.length - p ≤ defaultBufSize
  omega

def versionLine : List UInt8 := [upperA, sp] ++ ofChars ['/', ' ', 'H', 'T', 'T', 'P', '/', '1', '.', '0', '\n']

def markedLine : List UInt8 := [upperA, sp] ++ ofChars ['/', '#', ' ', 'H', 'T', 'T', 'P', '/', '1', '.', '0', '\n']

def bareLine : List UInt8 := ofChars ['G', 'E', 'T', ' ', '/', '\r', '\n']

section Runs

variable (mem : Mem) (p : Nat) (r : RequestT)

theorem run_unknownMethod : run (requestLineStep mem) p (.start, r) [upperA, sp] =
    .pending (.spacesBeforeUri, { r with requestStart := p, methodEnd := p }) := by
  have hMethod : run (requestLineStep mem) p (.start, r) [upperA, sp] =
      .pending (.spacesBeforeUri, { r with
        requestStart := p, methodEnd := p, method := (methodNumber mem p (p + 1)).getD r.method }) := rfl
  rw [hMethod]
  simp [methodNumber]

theorem run_versionLine : run (requestLineStep mem) p (.start, r) versionLine =
    .halted (p + 12) (.done { r with
      requestStart := p, methodEnd := p, uriStart := p + 2, uriEnd := p + 3
      httpProtocol := { r.httpProtocol with data := p + 4 }, httpMajor := 1, httpMinor := 0 }) :=
  run_append_of_pending _ (run_unknownMethod mem p r)

theorem run_markedLine : run (requestLineStep mem) p (.start, r) markedLine =
    .halted (p + 13) (.done { r with
      requestStart := p, methodEnd := p, uriStart := p + 2, uriEnd := p + 4, complexUri := 1
      httpProtocol := { r.httpProtocol with data := p + 5 }, httpMajor := 1, httpMinor := 0 }) :=
  run_append_of_pending _ (run_unknownMethod mem p r)

theorem run_bareLine : run (requestLineStep mem) p (.start, r) bareLine =
    .halted (p + 6) (.done { r with
      requestStart := p, methodEnd := p + 2, method := (methodNumber mem p (p + 3)).getD r.method
      uriStart := p + 4, uriEnd := p + 5, requestEnd := p + 5, httpMinor := 9 }) := rfl

end Runs

/-- The name of `GET /` is known. -/
theorem methodNumber_bareLine (m : Mem) (p : Nat) (rest : List UInt8) :
    methodNumber (place m p (bareLine ++ rest)) p (p + 3) = some ngxHttpGet := by
  have hHere : slice (place m p (bareLine ++ rest)) p (p + (bareLine ++ rest).length) =
      ofChars ['G', 'E', 'T'] ++ (ofChars [' ', '/', '\r', '\n'] ++ rest) := slice_place m p (bareLine ++ rest)
  have hWord : slice (place m p (bareLine ++ rest)) p (p + 3) = ofChars ['G', 'E', 'T'] := (slice_eq_append hHere).1
  have hLength : ((p + 3 : Nat) : Int) - (p : Int) = 3 := by omega
  simp only [methodNumber, hLength, if_true, ngxStrCmp, List.length_cons, List.length_nil, hWord]
  rfl

theorem run_getLine (m : Mem) (p : Nat) (rest : List UInt8) (r : RequestT) :
    run (requestLineStep (place m p (bareLine ++ rest))) p (.start, r) bareLine =
      .halted (p + 6) (.done { r with
        requestStart := p, methodEnd := p + 2, method := ngxHttpGet
        uriStart := p + 4, uriEnd := p + 5, requestEnd := p + 5, httpMinor := 9 }) := by
  rw [run_bareLine, methodNumber_bareLine, Option.getD_some]

/-- The parser's answer to a line whose run is known. -/
theorem ngxHttpParseRequestLine_of_run {mem : Mem} {r q : RequestT} {b : LtBuffer} {line rest : List UInt8} {x : Nat}
    (hState : r.state = 0) (hUnread : b.unread mem = line ++ rest)
    (hRun : run (requestLineStep mem) b.pos (.start, r) line = .halted x (.done q)) :
    ngxHttpParseRequestLine mem r b = ((requestLineDone x q).1, (requestLineDone x q).2, { b with pos := x + 1 }) := by
  rw [ngxHttpParseRequestLine, hState, RequestLineState.ofNat?_zero]
  simp only [hUnread, run_append_of_halted rest hRun]

theorem httpRequestLineParsed_values (q : RequestT) (b : LtBuffer) :
    (httpRequestLineParsed q b).values = ⟨q.method, q.httpVersion,
      ⟨ptrDiff q.uriEnd q.uriStart, if q.complexUri ≠ 0 ∨ q.quotedUri ≠ 0 then q.uri.data else q.uriStart⟩,
      q.complexUri, q.quotedUri, q.spaceInUri⟩ := by
  simp only [httpRequestLineParsed, RequestT.values]
  split_ifs <;> rfl

theorem httpRequestLineParsed_done_upstream (x : Nat) (q : RequestT) (b : LtBuffer) :
    (httpRequestLineParsed (requestLineDone x q).2 b).upstream = q.upstream := by
  rw [requestLineDone_snd]
  simp only [httpRequestLineParsed]
  split_ifs <;> rfl

/-- A line with a block behind it is accepted. -/
theorem accepts_of_run {h : Head} {q : RequestT} {line rest : List UInt8} {x : Nat} (blk : HeaderBlock)
    (hState : h.req.state = 0) (hUnread : h.buf.unread h.mem = line ++ (blk.bytes ++ rest))
    (hRun : run (requestLineStep h.mem) h.buf.pos (.start, h.req) line = .halted x (.done q))
    (hLength : x + 1 = h.buf.pos + line.length) (hLok : (requestLineDone x q).1 = .lok)
    (hRead : blk.Readable q.upstream) (hBound : blk.bytes.length < 2 ^ 31) :
    ∃ g, AcceptsRequest h g ∧ HeadersRead { h with
        req := httpRequestLineParsed (requestLineDone x q).2 { h.buf with pos := x + 1 }
        buf := { h.buf with pos := x + 1 } } g (x + 1) blk := by
  have hParse := ngxHttpParseRequestLine_of_run hState hUnread hRun
  rw [hLok] at hParse
  obtain ⟨g, hReturns, hHeaders⟩ := returns_of_block
    (h := { h with
      req := httpRequestLineParsed (requestLineDone x q).2 { h.buf with pos := x + 1 }
      buf := { h.buf with pos := x + 1 } })
    blk ((httpRequestLineParsed_state _ _).trans (ngxHttpParseRequestLine_state hParse))
    (by rw [hLength]; exact (slice_eq_append hUnread).2)
    (by rwa [httpRequestLineParsed_done_upstream]) hBound
  exact ⟨g, ⟨_, _, hParse, hReturns⟩, hHeaders⟩

/-- Behind a line that is accepted with its headers there is a block. -/
theorem beginsWithBlock_of_accepts {h g : Head} {q : RequestT} {line w : List UInt8} {x : Nat}
    (hState : h.req.state = 0) (hUnread : h.buf.unread h.mem = line ++ w)
    (hRun : run (requestLineStep h.mem) h.buf.pos (.start, h.req) line = .halted x (.done q))
    (hLength : x + 1 = h.buf.pos + line.length) (hLok : (requestLineDone x q).1 = .lok)
    (hAccepts : AcceptsRequest h g) : BeginsWithBlock q.upstream w := by
  have hParse := ngxHttpParseRequestLine_of_run hState hUnread hRun
  rw [hLok] at hParse
  obtain ⟨q', b, hParse', hReturns⟩ := hAccepts
  rw [hParse] at hParse'
  cases hParse'
  have hBlock := beginsWithBlock_of_terminates
    ((httpRequestLineParsed_state _ _).trans (ngxHttpParseRequestLine_state hParse)) ⟨g, hReturns⟩
  have hHere : LtBuffer.unread { h.buf with pos := x + 1 } h.mem = w := by
    rw [hLength]
    exact (slice_eq_append hUnread).2
  rw [← hHere, ← httpRequestLineParsed_done_upstream x q { h.buf with pos := x + 1 }]
  exact hBlock

def blankBlock : HeaderBlock := ⟨[], [], false⟩

/-- A line with a blank line behind it is accepted, and its chain holds the three slices of the line. -/
theorem accepts_blankBlock {h : Head} {q : RequestT} {line : List UInt8} {x : Nat} (hState : h.req.state = 0)
    (hUnread : h.buf.unread h.mem = line ++ (blankBlock.bytes ++ []))
    (hRun : run (requestLineStep h.mem) h.buf.pos (.start, h.req) line = .halted x (.done q))
    (hLength : x + 1 = h.buf.pos + line.length) (hLok : (requestLineDone x q).1 = .lok) :
    ∃ g, AcceptsRequest h g ∧ ∀ chains, g.chainBytes httpConstructRequestChains chains =
      some (iovBytes h.mem (requestIovecs
        (httpRequestLineParsed (requestLineDone x q).2 { h.buf with pos := x + 1 }) [])) := by
  obtain ⟨g, hAccepts, hRead⟩ := accepts_of_run blankBlock hState hUnread hRun hLength hLok
    ⟨List.forall_mem_nil _, .nil⟩ (by decide)
  refine ⟨g, hAccepts, fun chains => ?_⟩
  obtain ⟨chains', hConstruct, hChain⟩ := httpConstructRequestChains_built chains hRead.list
  have hVec := hChain.outVec (by simp [requestIovecs])
  have hSame : requestIovecs g.req [] = requestIovecs
      (httpRequestLineParsed (requestLineDone x q).2 { h.buf with pos := x + 1 }) [] := by
    have hMethod := congrArg RequestT.methodName hRead.req
    have hUri := congrArg RequestT.uri hRead.req
    have hProtocol := congrArg RequestT.httpProtocol hRead.req
    simp only [RequestT.forgetHead, RequestT.forgetHeader] at hMethod hUri hProtocol
    simp only [requestIovecs, hMethod, hUri, hProtocol]
  have hMem : g.mem = h.mem := hRead.mem
  simp only [Head.chainBytes, hConstruct, Option.bind_some]
  rw [show lineElements (x + 1) blankBlock.lines = [] from rfl] at hVec
  rw [hVec, Option.map_some, hMem, hSame]

def versionSlice (x : Nat) (q : RequestT) : Iovec :=
  LtString.widen ⟨ptrDiff (if q.requestEnd = 0 then x else q.requestEnd : Nat) q.httpProtocol.data,
    q.httpProtocol.data⟩ 2

/-- The slices of a finished line. -/
theorem requestIovecs_done (x : Nat) (q : RequestT) (b : LtBuffer) :
    requestIovecs (httpRequestLineParsed (requestLineDone x q).2 b) [] =
      [LtString.widen ⟨wrap32 (ptrDiff q.methodEnd q.requestStart + 1), q.requestStart⟩ 1,
        LtString.widen ⟨ptrDiff q.uriEnd q.uriStart,
          if q.complexUri ≠ 0 ∨ q.quotedUri ≠ 0 then q.uri.data else q.uriStart⟩ 1,
        versionSlice x q] := by
  rw [requestLineDone_snd]
  simp only [requestIovecs, httpRequestLineParsed]
  by_cases hMarked : q.complexUri ≠ 0 ∨ q.quotedUri ≠ 0
  · rw [if_pos hMarked, if_pos hMarked]
    rfl
  · rw [if_neg hMarked, if_neg hMarked]
    rfl

/-- A slice in front of a word is the one that the memory held before. -/
theorem earlier_of_slices {w : List UInt8} {d d' : Nat} (hLt : d < d')
    (hSlices : ∀ m p, slice (place m p w) d (d + (LtString.widen ⟨ptrDiff (p + 5) d, d⟩ 2).len) =
      slice (place m p w) d' (d' + (LtString.widen ⟨ptrDiff (p + 5) d', d'⟩ 2).len)) : False := by
  have hBytes := hSlices (fun x => if x = d then 1 else 0) (d' + 1)
  have hLength := congrArg List.length hBytes
  have hEight : (LtString.widen ⟨ptrDiff (d' + 1 + 5) d', d'⟩ 2).len = 8 := by
    rw [ptrDiff_of_le (by omega) (by omega), show d' + 1 + 5 - d' = 6 by omega]
    rfl
  rw [length_slice, length_slice, Nat.add_sub_cancel_left, Nat.add_sub_cancel_left, hEight] at hLength
  rw [hEight, hLength, slice_cons (show d < d + 8 by omega), slice_cons (show d' < d' + 8 by omega),
    List.cons.injEq] at hBytes
  have hBefore : ∀ x, x < d' + 1 → place (fun x => if x = d then (1 : UInt8) else 0) (d' + 1) w x =
      if x = d then 1 else 0 := fun x hx => dif_neg fun h => by omega
  rw [hBefore d (by omega), hBefore d' (by omega), if_pos rfl, if_neg (by omega)] at hBytes
  exact absurd hBytes.1 (by decide)

/-- The block of a line that a response skips: a word `HTTP/` and a NUL. -/
def skippedBlock : HeaderBlock := ⟨[], replyMark ++ [nul] ++ lf :: [], false⟩

theorem HeaderText.nul_not_mem (l : HeaderText) : nul ∉ l.bytes := by
  intro hMem
  simp only [bytes, name, List.mem_append, List.mem_cons, List.mem_replicate, List.not_mem_nil, or_false] at hMem
  rcases hMem with ((((hFirst | hRest) | hField) | ⟨-, hCr⟩) | hLf)
  · exact l.first_plain.1 hFirst.symm
  · exact (l.rest_plain nul hRest).1.1 rfl
  · unfold fieldBytes at hField
    split at hField
    · cases hField
    · rename_i f _
      simp only [FieldText.bytes, List.mem_cons, List.mem_append, List.mem_replicate] at hField
      rcases hField with hColon | ((⟨-, hSp⟩ | hValue) | ⟨-, hSp⟩)
      · exact absurd hColon (by decide)
      · exact absurd hSp (by decide)
      · exact (f.plain nul hValue).1 rfl
      · exact absurd hSp (by decide)
  · exact absurd hCr (by decide)
  · exact absurd hLf (by decide)

theorem not_beginsWith_skipped : ¬ BeginsWithBlock 0 skippedBlock.bytes := by
  rintro ⟨⟨lines, skip, blank⟩, ⟨hLines, hSkip⟩, hPrefix⟩
  have hNil : ∀ {w : List UInt8}, Skipped 0 w → w = [] := fun h => by
    cases h with
    | nil => rfl
    | line hUpstream => exact absurd rfl hUpstream
  cases lines with
  | nil =>
      obtain rfl := hNil hSkip
      cases blank <;> exact absurd hPrefix (by decide)
  | cons e lines =>
      obtain ⟨before, l⟩ := e
      obtain rfl := hNil (hLines _ List.mem_cons_self).1
      have hLine : l.bytes <+: skippedBlock.bytes := by
        refine List.IsPrefix.trans ?_ hPrefix
        simp only [HeaderBlock.bytes, HeaderBlock.linesBytes_cons, List.nil_append, List.append_assoc]
        exact List.prefix_append _ _
      have hTake := List.prefix_iff_eq_take.mp hLine
      have hLf : lf ∈ l.bytes := by simp [HeaderText.bytes]
      have hNul := l.nul_not_mem
      -- The first line feed of the block stands behind its NUL.
      rcases Nat.lt_or_ge l.bytes.length 6 with hShort | hLong
      · rw [hTake] at hLf
        exact absurd (List.take_subset_take_left _ hShort.le hLf) (by decide)
      · rw [hTake] at hNul
        exact hNul (List.take_subset_take_left _ hLong (by decide))

section Shows

variable {r r' q q' : RequestT} {line : List UInt8} {m : Mem} {p x : Nat}

/-- Two runs over one line that is accepted show their values. -/
theorem ParsesAlike.values (rest : List UInt8) (hState : r.state = 0) (hState' : r'.state = 0)
    (hSame : ParsesAlike (.placed m p (line ++ rest)) r r')
    (hRun : run (requestLineStep (place m p (line ++ rest))) p (.start, r) line = .halted x (.done q))
    (hRun' : run (requestLineStep (place m p (line ++ rest))) p (.start, r') line = .halted x (.done q'))
    (hLok : (requestLineDone x q).1 = .lok) (hLok' : (requestLineDone x q').1 = .lok) (b : LtBuffer) :
    (httpRequestLineParsed (requestLineDone x q).2 b).values =
      (httpRequestLineParsed (requestLineDone x q').2 b).values := by
  have hUnread := bufferAt_unread m p (line ++ rest)
  have hParse := ngxHttpParseRequestLine_of_run (b := bufferAt p (line ++ rest)) hState hUnread hRun
  have hParse' := ngxHttpParseRequestLine_of_run (b := bufferAt p (line ++ rest)) hState' hUnread hRun'
  have hAnswer := hSame.requestLine
  simp only [Head.placed, requestLineAnswer, hParse, hParse', hLok, hLok', if_true, Prod.mk.injEq, Option.some.injEq,
    true_and] at hAnswer
  rw [httpRequestLineParsed_values, httpRequestLineParsed_values] at hAnswer ⊢
  exact hAnswer

/-- Two runs over one line that agree on its method and its URI show the bytes of their version slices. -/
theorem ParsesAlike.versionBytes (hState : r.state = 0) (hState' : r'.state = 0)
    (hSame : ParsesAlike (.placed m p (line ++ (blankBlock.bytes ++ []))) r r')
    (hRun : run (requestLineStep (place m p (line ++ (blankBlock.bytes ++ [])))) p (.start, r) line =
      .halted x (.done q))
    (hRun' : run (requestLineStep (place m p (line ++ (blankBlock.bytes ++ [])))) p (.start, r') line =
      .halted x (.done q'))
    (hLength : x + 1 = p + line.length)
    (hLok : (requestLineDone x q).1 = .lok) (hLok' : (requestLineDone x q').1 = .lok)
    (hMethod : q.requestStart = q'.requestStart ∧ q.methodEnd = q'.methodEnd)
    (hUri : q.uriStart = q'.uriStart ∧ q.uriEnd = q'.uriEnd ∧ q.uri.data = q'.uri.data) (hFlags : SameFlags q q') :
    slice (place m p (line ++ (blankBlock.bytes ++ []))) q.httpProtocol.data
        (q.httpProtocol.data + (versionSlice x q).len) =
      slice (place m p (line ++ (blankBlock.bytes ++ []))) q'.httpProtocol.data
        (q'.httpProtocol.data + (versionSlice x q').len) := by
  have hUnread := bufferAt_unread m p (line ++ (blankBlock.bytes ++ []))
  obtain ⟨g, hAccepts, hBytes⟩ := accepts_blankBlock
    (h := { Head.placed m p (line ++ (blankBlock.bytes ++ [])) with req := r }) hState hUnread hRun hLength hLok
  obtain ⟨g', hAccepts', hBytes'⟩ := accepts_blankBlock
    (h := { Head.placed m p (line ++ (blankBlock.bytes ++ [])) with req := r' }) hState' hUnread hRun' hLength hLok'
  have hChain := (hSame.request.content g g' hAccepts hAccepts').2 ⟨[], fun _ => ⟨⟨0, 0⟩, none, 0⟩⟩
  rw [hBytes, hBytes', Option.some.injEq] at hChain
  simp only [Head.placed, requestIovecs_done, iovBytes, List.flatMap_cons, List.flatMap_nil, List.append_nil,
    hMethod.1, hMethod.2, hUri.1, hUri.2.1, hUri.2.2, hFlags.complexUri, hFlags.quotedUri,
    List.append_cancel_left_eq] at hChain
  exact hChain

theorem requestLineDone_current (hMajor : q.httpMajor = 1) (hMinor : q.httpMinor = 0) :
    (requestLineDone x q).1 = .lok := by
  rw [requestLineDone_fst, hMajor, hMinor]
  exact if_neg fun h => absurd h.1 (by decide)

theorem requestLineDone_get (hMethod : q.method = ngxHttpGet) : (requestLineDone x q).1 = .lok := by
  rw [requestLineDone_fst]
  exact if_neg fun h => h.2 hMethod

/-- The length of a slice shows the length of its string up to 32 bits. -/
theorem wrap32_of_widen {a a' : Int} {d d' : Nat}
    (h : (LtString.widen ⟨a, d⟩ 2).len = (LtString.widen ⟨a', d'⟩ 2).len) : wrap32 a = wrap32 a' := by
  simp only [LtString.widen, toSize, wrap32] at h ⊢
  rw [Int.bmod_def, Int.bmod_def] at h ⊢
  split_ifs at h ⊢ <;> omega

variable (hState : r.state = 0) (hState' : r'.state = 0) (hAll : ∀ h, h.Small → ParsesAlike h r r')

include hState hState' hAll

theorem sameFlags_of_parsesAlike : r.method = r'.method ∧ SameFlags r r' := by
  have hValues := ParsesAlike.values [] hState hState' (hAll (.placed (fun _ => 0) 0 _) (Head.placed_small (by decide)))
    (run_versionLine _ 0 r) (run_versionLine _ 0 r') (requestLineDone_current rfl rfl)
    (requestLineDone_current rfl rfl) (bufferAt 0 versionLine)
  rw [httpRequestLineParsed_values, httpRequestLineParsed_values, requestLineDone_snd, requestLineDone_snd,
    RequestValues.mk.injEq] at hValues
  obtain ⟨hMethod, -, -, hComplex, hQuoted, hSpace⟩ := hValues
  exact ⟨hMethod, hComplex, hQuoted, hSpace⟩

theorem uri_of_parsesAlike : r.uri.data = r'.uri.data := by
  have hValues := ParsesAlike.values [] hState hState' (hAll (.placed (fun _ => 0) 0 _) (Head.placed_small (by decide)))
    (run_markedLine _ 0 r) (run_markedLine _ 0 r') (requestLineDone_current rfl rfl)
    (requestLineDone_current rfl rfl) (bufferAt 0 markedLine)
  rw [httpRequestLineParsed_values, httpRequestLineParsed_values, requestLineDone_snd, requestLineDone_snd,
    RequestValues.mk.injEq] at hValues
  have hData := congrArg LtString.data hValues.2.2.1
  have hMarked : ∀ y : Int, (1 : Int) ≠ 0 ∨ y ≠ 0 := fun _ => Or.inl one_ne_zero
  simp only [hMarked, if_true] at hData
  exact hData

theorem version_of_parsesAlike : wrap32 (r.httpMajor * 1000 + 9) = wrap32 (r'.httpMajor * 1000 + 9) := by
  have hValues := ParsesAlike.values [] hState hState' (hAll (.placed (fun _ => 0) 0 _) (Head.placed_small (by decide)))
    (run_getLine _ 0 [] r) (run_getLine _ 0 [] r') (requestLineDone_get rfl) (requestLineDone_get rfl)
    (bufferAt 0 bareLine)
  rw [httpRequestLineParsed_values, httpRequestLineParsed_values, requestLineDone_snd, requestLineDone_snd,
    RequestValues.mk.injEq] at hValues
  exact hValues.2.1

/-- The version slice of `A / HTTP/1.0`, at every place. -/
theorem requestEnd_of_parsesAlike_at (p : Nat) :
    wrap32 (if r.requestEnd = 0 then p + 12 else r.requestEnd : Nat) =
      wrap32 (if r'.requestEnd = 0 then p + 12 else r'.requestEnd : Nat) := by
  have hFlags := (sameFlags_of_parsesAlike hState hState' hAll).2
  have hUri := uri_of_parsesAlike hState hState' hAll
  have hBytes := ParsesAlike.versionBytes hState hState' (hAll (.placed (fun _ => 0) p _) (Head.placed_small (by decide)))
    (run_versionLine _ p r) (run_versionLine _ p r') rfl (requestLineDone_current rfl rfl)
    (requestLineDone_current rfl rfl) ⟨rfl, rfl⟩ ⟨rfl, rfl, hUri⟩
    ⟨hFlags.complexUri, hFlags.quotedUri, hFlags.spaceInUri⟩
  have hLength := congrArg List.length hBytes
  simp only [length_slice, Nat.add_sub_cancel_left] at hLength
  have hDiff := wrap32_of_widen hLength
  simp only [ptrDiff, wrap32, Int.bmod_bmod] at hDiff
  exact (Int.bmod_sub_cancel_right _).mp hDiff

theorem requestEnd_of_parsesAlike :
    (r.requestEnd = 0 ↔ r'.requestEnd = 0) ∧ wrap32 r.requestEnd = wrap32 r'.requestEnd := by
  have hHere := requestEnd_of_parsesAlike_at hState hState' hAll 0
  have hThere := requestEnd_of_parsesAlike_at hState hState' hAll 1
  unfold wrap32 at hHere hThere ⊢
  rw [Int.bmod_def, Int.bmod_def] at hHere hThere ⊢
  split_ifs at hHere hThere ⊢ <;> omega

/-- The version slice of `GET /`, at every place. -/
theorem protocol_of_parsesAlike_at (m : Mem) (p : Nat) :
    slice (place m p (bareLine ++ (blankBlock.bytes ++ []))) r.httpProtocol.data
        (r.httpProtocol.data + (LtString.widen ⟨ptrDiff (p + 5) r.httpProtocol.data, r.httpProtocol.data⟩ 2).len) =
      slice (place m p (bareLine ++ (blankBlock.bytes ++ []))) r'.httpProtocol.data
        (r'.httpProtocol.data +
          (LtString.widen ⟨ptrDiff (p + 5) r'.httpProtocol.data, r'.httpProtocol.data⟩ 2).len) := by
  have hFlags := (sameFlags_of_parsesAlike hState hState' hAll).2
  have hUri := uri_of_parsesAlike hState hState' hAll
  have hBytes := ParsesAlike.versionBytes hState hState' (hAll (.placed m p _) (Head.placed_small (by decide)))
    (run_getLine m p (blankBlock.bytes ++ []) r) (run_getLine m p (blankBlock.bytes ++ []) r') rfl
    (requestLineDone_get rfl) (requestLineDone_get rfl) ⟨rfl, rfl⟩ ⟨rfl, rfl, hUri⟩
    ⟨hFlags.complexUri, hFlags.quotedUri, hFlags.spaceInUri⟩
  exact hBytes

theorem protocol_of_parsesAlike : r.httpProtocol.data = r'.httpProtocol.data := by
  rcases Nat.lt_trichotomy r.httpProtocol.data r'.httpProtocol.data with hLt | hEq | hGt
  · exact (earlier_of_slices hLt (protocol_of_parsesAlike_at hState hState' hAll)).elim
  · exact hEq
  · exact (earlier_of_slices hGt fun m p => (protocol_of_parsesAlike_at hState hState' hAll m p).symm).elim

/-- A request that knows an upstream skips a line that one without refuses. -/
theorem upstream_of_accepts (hUpstream : r.upstream ≠ 0) : r'.upstream ≠ 0 := by
  intro hNone
  have hUnread := bufferAt_unread (fun _ => 0) 0 (versionLine ++ (skippedBlock.bytes ++ []))
  obtain ⟨g, hAccepts, -⟩ := accepts_of_run
    (h := { Head.placed (fun _ => 0) 0 (versionLine ++ (skippedBlock.bytes ++ [])) with req := r }) skippedBlock
    hState hUnread (run_versionLine _ 0 r) rfl (requestLineDone_current rfl rfl)
    ⟨List.forall_mem_nil _, .line hUpstream (by decide) .nil⟩ (by decide)
  obtain ⟨g', hAccepts'⟩ := (hAll _ (Head.placed_small (by decide))).request.accepted.mp ⟨g, hAccepts⟩
  have hBlock := beginsWithBlock_of_accepts hState' hUnread (run_versionLine _ 0 r') rfl
    (requestLineDone_current rfl rfl) hAccepts'
  simp only [hNone, List.append_nil] at hBlock
  exact not_beginsWith_skipped hBlock

/-- Two old contents that are parsed alike on the bytes of every buffer have the same residue. -/
theorem sameResidue_of_parsesAlike : SameResidue r r' where
  line := by
    obtain ⟨hMethod, hFlags⟩ := sameFlags_of_parsesAlike hState hState' hAll
    exact ⟨hMethod, version_of_parsesAlike hState hState' hAll, hFlags, uri_of_parsesAlike hState hState' hAll,
      protocol_of_parsesAlike hState hState' hAll, requestEnd_of_parsesAlike hState hState' hAll,
      not_iff_not.mp ⟨upstream_of_accepts hState hState' hAll,
        upstream_of_accepts hState' hState fun h hSmall => (hAll h hSmall).symm⟩⟩
  status := (statusLineAnswer_eq_iff hState hState').mp fun mem b hSmall =>
    (hAll ⟨{}, b, mem, ⟨[], fun _ => ⟨0, 0, {}, {}, {}, none⟩⟩⟩ hSmall).statusLine

end Shows

theorem SameResidue.ofState {r r' : RequestT} (h : SameResidue { r with state := 0 } { r' with state := 0 }) :
    SameResidue r r' :=
  ⟨⟨h.line.method, h.line.version, ⟨h.line.flags.complexUri, h.line.flags.quotedUri, h.line.flags.spaceInUri⟩,
    h.line.uri, h.line.protocol, h.line.requestEnd, h.line.upstream⟩, h.status⟩

theorem SameResidue.toState {r r' : RequestT} (h : SameResidue r r') :
    SameResidue { r with state := 0 } { r' with state := 0 } :=
  ⟨⟨h.line.method, h.line.version, ⟨h.line.flags.complexUri, h.line.flags.quotedUri, h.line.flags.spaceInUri⟩,
    h.line.uri, h.line.protocol, h.line.requestEnd, h.line.upstream⟩, h.status⟩

end Leactor
