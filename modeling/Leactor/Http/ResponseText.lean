import Leactor.Http.ProxyData
import Leactor.Parse.StatusText

/-! A response head of plain header lines: the parsers accept it, and its chain holds
it with the header names in lower case. -/
namespace Leactor

open Ascii Scan Loop Memory

/-- A status line `HTTP/1.1 200 reason`, up to its carriage return. -/
structure StatusText where
  major : UInt8
  minor : UInt8
  hundreds : UInt8
  tens : UInt8
  units : UInt8
  reason : List UInt8
  major_digit : one ≤ major ∧ major ≤ nine
  minor_digit : IsDigit minor
  hundreds_digit : IsDigit hundreds
  tens_digit : IsDigit tens
  units_digit : IsDigit units
  reason_plain : ∀ c ∈ reason, IsPlain c

structure FieldLine where
  name : List UInt8
  value : List UInt8
  name_ne : name ≠ []
  name_plain : ∀ c ∈ name, IsPlain c ∧ c ≠ colon
  value_plain : ∀ c ∈ value, IsPlain c
  value_head : value.head? ≠ some sp
  value_last : value.getLast? ≠ some sp

/-- A response head: a status line, and at least one header line. -/
structure ResponseHead where
  status : StatusText
  lines : List FieldLine
  lines_ne : lines ≠ []

def FieldLine.bytes (l : FieldLine) : List UInt8 := l.name ++ (colon :: sp :: l.value ++ [cr, lf])

def FieldLine.lowerBytes (l : FieldLine) : List UInt8 :=
  l.name.map tolower ++ (colon :: sp :: l.value ++ [cr, lf])

/-- The parser keeps the line as a header, and where it takes it for the host it
leaves the value. -/
structure FieldLine.Kept (l : FieldLine) : Prop where
  name_byte : ∀ c ∈ l.name, IsNameByte c
  host : nameHash l.name = hostHash → ∀ n, hostLength l.value = some n →
    n = l.value.length ∧ l.value.map tolower = l.value

def StatusText.bytes (t : StatusText) : List UInt8 :=
  ofChars ['H', 'T', 'T', 'P', '/'] ++
    ([t.major, dot, t.minor, sp, t.hundreds, t.tens, t.units, sp] ++ (t.reason ++ [cr]))

namespace ResponseHead

def bytes (x : ResponseHead) : List UInt8 :=
  x.status.bytes ++ (lf :: (x.lines.flatMap FieldLine.bytes ++ [cr, lf]))

def lowerBytes (x : ResponseHead) : List UInt8 :=
  x.status.bytes ++ (lf :: (x.lines.flatMap FieldLine.lowerBytes ++ [cr, lf]))

end ResponseHead

def StatusText.line (t : StatusText) : StatusLineText where
  version := ⟨t.major, [], t.minor, [], 1, t.major_digit, no_digits, t.minor_digit, no_digits⟩
  hundreds := t.hundreds
  firstGap := 0
  tens := t.tens
  secondGap := 0
  units := t.units
  tail := sp :: t.reason
  crlf := true
  after_pos := Nat.one_pos
  hundreds_digit := t.hundreds_digit
  tens_digit := t.tens_digit
  units_digit := t.units_digit
  tail_text := Or.inr ⟨sp, t.reason, rfl, Or.inl rfl, fun c hc => (t.reason_plain c hc).2⟩

theorem StatusText.line_bytes (t : StatusText) : t.line.bytes = t.bytes ++ [lf] := by
  simp [StatusLineText.bytes, StatusLineText.front, StatusLineText.codeFront, VersionText.bytes, VersionText.numbers,
    line, bytes, replyMark, lineBreak, ofChars]

/-- The parser accepts the line, whatever the request held before; only the count of
digits has to be zero. -/
theorem ngxHttpParseStatusLine_text {mem : Mem} {r : RequestT} {b : LtBuffer} {rest : List UInt8} (t : StatusText)
    (hState : r.state = 0) (hCount : r.status.count = 0) (hUnread : b.unread mem = t.bytes ++ lf :: rest) :
    ∃ r' b' status, ngxHttpParseStatusLine mem r b r.status = (.lok, r', b', status) := by
  have hLine : b.unread mem = t.line.bytes ++ rest := by
    rw [hUnread, t.line_bytes, List.append_assoc]
    rfl
  exact ⟨_, _, _, ngxHttpParseStatusLine_of_text t.line hState hCount hLine⟩

namespace FieldLine

def text (l : FieldLine) : HeaderText where
  first := l.name.head l.name_ne
  rest := l.name.tail
  field := some ⟨1, l.value, 0, l.value_plain, l.value_head, l.value_last, fun _ => rfl⟩
  crs := 1
  first_plain := (l.name_plain _ (List.head_mem _)).1
  rest_plain c hc := l.name_plain c (List.mem_of_mem_tail hc)

variable {l : FieldLine}

theorem text_name (l : FieldLine) : l.text.name = l.name := List.cons_head_tail l.name_ne

theorem text_bytes (l : FieldLine) : l.text.bytes = l.bytes := by
  rw [HeaderText.bytes, text_name]
  simp [text, HeaderText.fieldBytes, FieldText.bytes, bytes]

theorem Kept.valid (h : l.Kept) : l.text.Valid := by
  intro c hc
  rw [text_name] at hc
  exact h.name_byte c hc

/-- A mark of a reply is not a name. -/
theorem Kept.not_reply (h : l.Kept) : ¬ l.text.StartsReply := by
  intro hStarts
  have hSlash : slash ∈ l.text.name := hStarts.subset (by decide)
  exact absurd (h.valid slash hSlash) (by decide)

theorem Kept.host_value (h : l.Kept) (hHost : l.text.NamesHost) {n : Nat} (hn : hostLength l.value = some n) :
    n = l.value.length ∧ l.value.map tolower = l.value := by
  rw [HeaderText.NamesHost, text_name] at hHost
  exact h.host hHost n hn

theorem Kept.relayable (h : l.Kept) : l.text.Relayable := by
  refine ⟨⟨_, rfl, Or.inl (Nat.le_refl 1)⟩, ?_⟩
  rw [HeaderText.keptLength]
  split_ifs with hHost
  · cases hLength : hostLength l.text.value with
    | none => rfl
    | some n => exact (h.host_value hHost hLength).1
  · rfl

/-- The slices of the line hold it with its name in lower case. -/
theorem Kept.relayed (h : l.Kept) : l.text.lowered.narrowed.bytes = l.lowerBytes := by
  have hValue : l.text.lowered.value = l.value := by
    rw [HeaderText.lowered_value]
    split_ifs with hLowers
    · obtain ⟨n, hn⟩ := Option.isSome_iff_exists.mp hLowers.2
      exact (h.host_value hLowers.1 hn).2
    · rfl
  have hNarrow : l.text.lowered.narrowed.bytes = l.text.lowered.bytes := by
    simp only [HeaderText.bytes, HeaderText.fieldBytes, HeaderText.narrowed, HeaderText.lowered]
    split_ifs <;> rfl
  rw [hNarrow, HeaderText.bytes_eq, HeaderText.lowered_name, HeaderText.lowered_gapBytes, hValue,
    HeaderText.lowered_endBytes, text_name]
  simp [text, HeaderText.gapBytes, HeaderText.endBytes, lowerBytes]

end FieldLine

/-- Header lines and a blank line, as the parser reads them. -/
def linesBlock (ls : List FieldLine) : HeaderBlock where
  lines := ls.map fun l => ([], l.text)
  skip := []
  blank := true

section Lines

variable {ls : List FieldLine}

theorem linesBlock_bytes (ls : List FieldLine) :
    (linesBlock ls).bytes = ls.flatMap FieldLine.bytes ++ [cr, lf] := by
  have hLines : HeaderBlock.linesBytes (linesBlock ls).lines = ls.flatMap FieldLine.bytes := by
    rw [HeaderBlock.linesBytes, linesBlock, List.flatMap_map]
    simp only [List.nil_append, FieldLine.text_bytes]
  rw [HeaderBlock.bytes, hLines]
  rfl

theorem linesBlock_readable (hKept : ∀ l ∈ ls, l.Kept) (upstream : Nat) : (linesBlock ls).Readable upstream := by
  refine ⟨fun e he => ?_, .nil⟩
  obtain ⟨l, hl, rfl⟩ := List.mem_map.mp he
  exact ⟨.nil, fun _ => (hKept l hl).not_reply⟩

theorem linesBlock_relayable (hKept : ∀ l ∈ ls, l.Kept) (hNe : ls ≠ []) : (linesBlock ls).Relayable := by
  change Relays 2 (ls.map fun l => (([] : List UInt8), l.text))
  induction ls with
  | nil => exact absurd rfl hNe
  | cons l ls ih =>
      rw [List.forall_mem_cons] at hKept
      have hEnd : l.text.endBytes = [cr, lf] := rfl
      rw [List.map_cons]
      by_cases hNil : ls = []
      · subst hNil
        exact .last hKept.1.valid hKept.1.relayable (List.forall_mem_nil _) (by rw [hEnd]; rfl)
      · exact .valid hKept.1.valid hKept.1.relayable (by rw [hEnd]; rfl) (ih hKept.2 hNil)

theorem linesBlock_relayed (hKept : ∀ l ∈ ls, l.Kept) :
    (linesBlock ls).relayed.bytes = ls.flatMap FieldLine.lowerBytes ++ [cr, lf] := by
  have hLines : HeaderBlock.linesBytes (relayLines ((ls.map fun l => (([] : List UInt8), l.text)).map lowerText)) =
      ls.flatMap FieldLine.lowerBytes := by
    induction ls with
    | nil => rfl
    | cons l ls ih =>
        rw [List.forall_mem_cons] at hKept
        rw [List.map_cons, List.map_cons, lowerText, if_pos hKept.1.valid, relayLines,
          if_pos (l.text.lowered_valid.mpr hKept.1.valid), HeaderBlock.linesBytes_cons, List.flatMap_cons,
          hKept.1.relayed, List.nil_append]
        cases ls with
        | nil => rfl
        | cons l' ls =>
            rw [if_neg, ih hKept.2]
            intro hNone
            have hValid := (hKept.2 l' List.mem_cons_self).valid
            refine hNone _ List.mem_cons_self ?_
            rw [lowerText, if_pos hValid]
            exact l'.text.lowered_valid.mpr hValid
  rw [HeaderBlock.bytes, show (linesBlock ls).relayed.lines = _ from rfl]
  exact congrArg (· ++ [cr, lf]) hLines

theorem linesBlock_headers (hKept : ∀ l ∈ ls, l.Kept) (p : Nat) :
    (lineElements p (linesBlock ls).lines).length = ls.length := by
  rw [length_lineElements, linesBlock, List.filter_eq_self.mpr, List.length_map]
  intro e he
  obtain ⟨l, hl, rfl⟩ := List.mem_map.mp he
  exact decide_eq_true (hKept l hl).valid

end Lines

theorem StatusText.lf_not_mem (t : StatusText) : lf ∉ t.bytes := by
  have hMajor := major_not_lf _ (not_or.mpr ⟨UInt8.not_lt.mpr t.major_digit.1, UInt8.not_lt.mpr t.major_digit.2⟩)
  have hMinor := (digit_not_break _ t.minor_digit).1
  have hHundreds := (digit_not_break _ t.hundreds_digit).1
  have hTens := (digit_not_break _ t.tens_digit).1
  have hUnits := (digit_not_break _ t.units_digit).1
  have hReason : lf ∉ t.reason := fun h => (t.reason_plain lf h).2.2 rfl
  have hMark : lf ∉ ofChars ['H', 'T', 'T', 'P', '/'] := by decide
  simp only [bytes, List.mem_append, List.mem_cons, not_or]
  refine ⟨hMark, ⟨hMajor.symm, by decide, hMinor.symm, by decide, hHundreds.symm, hTens.symm, hUnits.symm, by decide,
    List.not_mem_nil⟩, hReason, by decide, List.not_mem_nil⟩

theorem StatusText.getLast?_bytes (t : StatusText) : t.bytes.getLast? = some cr := by
  rw [bytes, ← List.append_assoc, ← List.append_assoc, List.getLast?_append]
  rfl

/-- A head at the front of the unread bytes is accepted, and its chain is the head
with the header names in lower case. -/
theorem ResponseHead.accepted {h : Head} {rest : List UInt8} (x : ResponseHead) (hKept : ∀ l ∈ x.lines, l.Kept)
    (hState : h.req.state = 0) (hCount : h.req.status.count = 0)
    (hUnread : h.buf.unread h.mem = x.bytes ++ rest) (hSize : h.buf.last - h.buf.pos < 2 ^ 30) :
    ∃ h' base fields, AcceptsResponse h h' ∧ h'.buf = { h.buf with pos := h.buf.pos + x.bytes.length } ∧
      (∀ y, y < h.buf.pos ∨ h.buf.pos + x.bytes.length ≤ y → h'.mem y = h.mem y) ∧
      ElementList h' base fields ∧ fields.length = x.lines.length ∧
      iovBytes h'.mem (responseIovecs h'.req fields) = x.lowerBytes := by
  have hRelay := linesBlock_relayable hKept x.lines_ne
  have hRead := linesBlock_readable hKept h.req.upstream
  have hText : h.buf.unread h.mem = x.status.bytes ++ lf :: ((linesBlock x.lines).bytes ++ rest) := by
    rw [hUnread, ResponseHead.bytes, linesBlock_bytes, List.append_assoc, List.cons_append]
  have hLength := congrArg List.length hText
  simp only [LtBuffer.unread, length_slice, List.length_append, List.length_cons] at hLength
  obtain ⟨r, b, status, hLine⟩ := ngxHttpParseStatusLine_text x.status hState hCount hText
  obtain ⟨y, q, z, hStatus, hLow, -, rfl, rfl, -, -⟩ := statusRead_of_lok hState hLine
  obtain rfl := statusRead_eq hText x.status.lf_not_mem hLow hStatus
  obtain ⟨h', hReturns, -⟩ := @returns_of_block
    { h with
      req := storeStatusLine { q with state := 0 } status
      buf := { h.buf with pos := h.buf.pos + x.status.bytes.length + 1 } }
    rest (linesBlock x.lines) rfl (slice_eq_cons (slice_eq_append hText).2).2.2
    (linesBlock_readable hKept _) (by omega)
  have hAccepts : AcceptsResponse h h' := ⟨_, _, _, hLine, hReturns⟩
  obtain ⟨r', c', status', hLine', hNe, -, hFirst, hEnd, hHeaders⟩ := hAccepts.read hState (by omega) hText
    x.status.lf_not_mem hRead
  rw [if_pos x.status.getLast?_bytes] at hEnd
  have hLineEnd : h'.req.requestLine = ⟨(x.status.bytes.length - 1 : Nat), h.buf.pos⟩ := by
    have hField := congrArg RequestT.requestLine hHeaders.req
    refine hField.trans ?_
    change (⟨ptrDiff status'.end_ r'.requestStart, r'.requestStart⟩ : LtString) = _
    have hPos := List.length_pos_iff.mpr hNe
    rw [hFirst, hEnd, ptrDiff_of_le (by omega) (by omega)]
    congr 2
    omega
  have hWhole : x.status.bytes.length + 1 + (linesBlock x.lines).bytes.length = x.bytes.length := by
    rw [ResponseHead.bytes, linesBlock_bytes]
    simp only [List.length_append, List.length_cons]
    omega
  refine ⟨h', _, _, hAccepts, ?_, fun y hy => ?_, hHeaders.list, linesBlock_headers hKept _, ?_⟩
  · rw [hHeaders.buf, ← hWhole]
    simp only [Nat.add_assoc]
  · rw [hHeaders.mem]
    refine lowerLines_frame _ ?_
    have hFront : (linesBlock x.lines).bytes.length =
        (HeaderBlock.linesBytes (linesBlock x.lines).lines).length + 2 := by
      rw [HeaderBlock.bytes, List.length_append]
      rfl
    omega
  · rw [hHeaders.responseBytes hNe hText hRelay hLineEnd (by omega), linesBlock_relayed hKept]
    rfl

theorem ok_plain : ∀ c ∈ ofChars ['O', 'K'], IsPlain c := by
  simp only [ofChars, List.map_cons, List.map_nil, List.forall_mem_cons]
  exact ⟨by decide, by decide, List.forall_mem_nil _⟩

def okHead : ResponseHead where
  status := ⟨one, one, 50, zero, zero, ofChars ['O', 'K'], major_one, digit_one, by decide, digit_zero, digit_zero,
    ok_plain⟩
  lines := [⟨[66], [100], by decide, List.forall_mem_singleton.mpr (by decide),
    List.forall_mem_singleton.mpr (by decide), by decide, by decide⟩]
  lines_ne := List.cons_ne_nil _ _

theorem okHead_kept : ∀ l ∈ okHead.lines, l.Kept :=
  List.forall_mem_singleton.mpr ⟨List.forall_mem_singleton.mpr (by decide), fun hHost => absurd hHost (by decide)⟩

end Leactor
