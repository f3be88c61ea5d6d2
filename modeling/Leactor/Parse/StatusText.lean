import Leactor.Parse.RequestText
import Leactor.Parse.StatusSpec

/-! The status lines that `ngx_http_parse_status_line` accepts, and its run over one
of them. Spaces may stand between the digits of the code. -/
namespace Leactor

open Ascii Scan Memory

/-- What stands behind the code of a status line: nothing, or a text behind a space or a dot. -/
def StatusTail (w : List UInt8) : Prop :=
  w = [] ∨ ∃ c v, w = c :: v ∧ (c = sp ∨ c = dot) ∧ ∀ d ∈ v, d ≠ cr ∧ d ≠ lf

structure StatusLineText where
  version : VersionText
  hundreds : UInt8
  firstGap : Nat
  tens : UInt8
  secondGap : Nat
  units : UInt8
  tail : List UInt8
  crlf : Bool
  after_pos : 0 < version.after
  hundreds_digit : IsDigit hundreds
  tens_digit : IsDigit tens
  units_digit : IsDigit units
  tail_text : StatusTail tail

namespace StatusLineText

/-- The protocol, from its `H` to the last digit of the minor version. -/
def protocol (t : StatusLineText) : List UInt8 := replyMark ++ t.version.numbers

/-- The first two digits of the code and the spaces behind each of them. -/
def codeFront (t : StatusLineText) : List UInt8 :=
  (t.hundreds :: List.replicate t.firstGap sp) ++ (t.tens :: List.replicate t.secondGap sp)

def front (t : StatusLineText) : List UInt8 :=
  t.version.bytes ++ (t.codeFront ++ (t.units :: t.tail))

def bytes (t : StatusLineText) : List UInt8 := t.front ++ lineBreak t.crlf

def Consecutive (t : StatusLineText) : Prop := t.firstGap = 0 ∧ t.secondGap = 0

def storeRequest (t : StatusLineText) (p : Nat) (r : RequestT) : RequestT :=
  { r with
    requestStart := p
    httpProtocol := { r.httpProtocol with data := p }
    httpProtocolEnd := p + t.protocol.length - 1
    httpMajor := t.version.majorValue
    httpMinor := t.version.minorValue }

def storeStatus (t : StatusLineText) (p : Nat) (status : HttpStatus) : HttpStatus :=
  { status with
    code := decimal status.code [t.hundreds, t.tens, t.units]
    count := 3
    start := p + (t.version.bytes ++ t.codeFront).length - 2
    end_ := if t.crlf then p + t.front.length else status.end_ }

end StatusLineText

variable {p : Nat} {r : RequestT} {z : HttpStatus}

/-- The numbers of a version, of one digit or more each. -/
theorem run_statusNumbers (v : VersionText) :
    run statusLineStep p ⟨.firstMajorDigit, r, z⟩ v.numbers =
      .pending ⟨.minorDigit, { r with httpMajor := v.majorValue, httpMinor := v.minorValue }, z⟩ := by
  have hMajor : ∀ x, statusLineStep x ⟨.firstMajorDigit, r, z⟩ v.major =
      .next ⟨.majorDigit, { r with httpMajor := digitValue v.major }, z⟩ := fun x =>
    if_neg (not_or.mpr ⟨UInt8.not_lt.mpr v.major_le.1, UInt8.not_lt.mpr v.major_le.2⟩)
  have hMajors : ∀ x, run statusLineStep x ⟨.majorDigit, { r with httpMajor := digitValue v.major }, z⟩
      v.majorRest = .pending ⟨.majorDigit, { r with httpMajor := v.majorValue }, z⟩ := by
    intro x
    refine run_foldl (fun n => StatusLineScan.mk .majorDigit { r with httpMajor := n } z) fun q n c hc => ?_
    have hDigit := v.majorRest_digit c hc
    simp only [statusLineStep, (digit_ne c hDigit).1, hDigit, not_true, if_false]
  have hMinor : ∀ x (r : RequestT), statusLineStep x ⟨.firstMinorDigit, r, z⟩ v.minor =
      .next ⟨.minorDigit, { r with httpMinor := digitValue v.minor }, z⟩ := fun x r =>
    if_neg (not_not.mpr v.minor_digit)
  have hMinors : ∀ x (r : RequestT), run statusLineStep x ⟨.minorDigit, { r with httpMinor := digitValue v.minor }, z⟩
      v.minorRest = .pending ⟨.minorDigit, { r with httpMinor := v.minorValue }, z⟩ := by
    intro x r
    refine run_foldl (fun n => StatusLineScan.mk .minorDigit { r with httpMinor := n } z) fun q n c hc => ?_
    have hDigit := v.minorRest_digit c hc
    simp only [statusLineStep, (digit_ne c hDigit).2.2.2, hDigit, not_true, if_false]
  rw [VersionText.numbers, run_cons_next _ (hMajor _), run_append_of_pending _ (hMajors _),
    run_cons_next _ rfl, run_cons_next _ (hMinor _ _)]
  exact hMinors _ _

/-- The version and the spaces behind it. -/
theorem run_statusVersion (v : VersionText) (hAfter : 0 < v.after) :
    run statusLineStep p ⟨.start, r, z⟩ v.bytes =
      .pending ⟨.status, { r with
        requestStart := p
        httpProtocol := { r.httpProtocol with data := p }
        httpProtocolEnd := p + (replyMark ++ v.numbers).length - 1
        httpMajor := v.majorValue
        httpMinor := v.minorValue }, z⟩ := by
  obtain ⟨n, hn⟩ := Nat.exists_eq_add_of_le' hAfter
  have hMark : run statusLineStep p ⟨.start, r, z⟩ replyMark =
      .pending ⟨.firstMajorDigit,
        { r with requestStart := p, httpProtocol := { r.httpProtocol with data := p } }, z⟩ := rfl
  have hSpace : ∀ x (r : RequestT), statusLineStep x ⟨.minorDigit, r, z⟩ sp =
      .next ⟨.status, { r with httpProtocolEnd := x - 1 }, z⟩ := fun _ _ => rfl
  rw [VersionText.bytes, run_append_of_pending _ hMark, run_append_of_pending _ (run_statusNumbers v), hn,
    List.replicate_succ, run_cons_next _ (hSpace _ _)]
  simp only [List.length_append, ← Nat.add_assoc]
  refine run_const fun q c hc => ?_
  rw [List.eq_of_mem_replicate hc]
  rfl

/-- A digit of the code in front of the last one. -/
theorem statusLineStep_codeDigit {c : UInt8} (hDigit : IsDigit c)
    (hCount : 0 ≤ z.count ∧ z.count < 2) :
    statusLineStep p ⟨.status, r, z⟩ c = .next ⟨.status, r, { z with
      code := wrap32 (z.code * 10 + digitValue c), count := z.count + 1 }⟩ := by
  have hNext : wrap32 (z.count + 1) = z.count + 1 := wrap32_of_bounds (by omega) (by omega)
  simp only [statusLineStep, (digit_ne c hDigit).2.2.2, hDigit, not_true, if_false, hNext]
  rw [if_neg (by omega)]

/-- Such a digit and the spaces behind it. -/
theorem run_codeDigit {c : UInt8} (n : Nat) (hDigit : IsDigit c) (hCount : 0 ≤ z.count ∧ z.count < 2) :
    run statusLineStep p ⟨.status, r, z⟩ (c :: List.replicate n sp) =
      .pending ⟨.status, r, { z with
        code := wrap32 (z.code * 10 + digitValue c), count := z.count + 1 }⟩ := by
  rw [run_cons_next _ (statusLineStep_codeDigit hDigit hCount)]
  refine run_const fun q d hd => ?_
  rw [List.eq_of_mem_replicate hd]
  rfl

/-- The last digit of the code. -/
theorem statusLineStep_lastDigit {c : UInt8} (hDigit : IsDigit c) (hCount : z.count = 2) :
    statusLineStep p ⟨.status, r, z⟩ c =
      .next ⟨.spaceAfterStatus, r, { z with
        code := wrap32 (z.code * 10 + digitValue c), count := 3, start := p - 2 }⟩ := by
  have hNext : wrap32 (z.count + 1) = 3 := by rw [hCount]; rfl
  simp only [statusLineStep, (digit_ne c hDigit).2.2.2, hDigit, not_true, if_false, hNext, if_true]

/-- The text behind the code. -/
theorem run_statusTail {w : List UInt8} (h : StatusTail w) :
    ∃ s, (s = .spaceAfterStatus ∨ s = .statusText) ∧
      run statusLineStep p ⟨.spaceAfterStatus, r, z⟩ w = .pending ⟨s, r, z⟩ := by
  rcases h with rfl | ⟨c, v, rfl, hc, hPlain⟩
  · exact ⟨_, Or.inl rfl, rfl⟩
  · refine ⟨.statusText, Or.inr rfl, ?_⟩
    rw [@run_cons_next _ _ _ _ _ _ ⟨.statusText, r, z⟩ _ v (if_pos hc)]
    refine run_const fun q d hd => ?_
    simp only [statusLineStep, (hPlain d hd).1, (hPlain d hd).2, if_false]

/-- The terminator of a line. -/
theorem run_statusBreak {s : StatusLineState} (crlf : Bool) (hs : s = .spaceAfterStatus ∨ s = .statusText) :
    run statusLineStep p ⟨s, r, z⟩ (lineBreak crlf) = .halted (p + (lineBreak crlf).length - 1)
      (.done r { z with end_ := if crlf then p else z.end_ }) := by
  cases crlf with
  | false => rcases hs with rfl | rfl <;> rfl
  | true => rcases hs with rfl | rfl <;> rfl

/-- The first two digits of the code. -/
theorem run_codeFront (t : StatusLineText) (hCount : z.count = 0) :
    run statusLineStep p ⟨.status, r, z⟩ t.codeFront =
      .pending ⟨.status, r, { z with code := decimal z.code [t.hundreds, t.tens], count := 2 }⟩ := by
  have hFirst := run_codeDigit (p := p) (r := r) (z := z) t.firstGap t.hundreds_digit (by omega)
  have hSecond := run_codeDigit (p := p + (t.hundreds :: List.replicate t.firstGap sp).length) (r := r)
    (z := { z with
      code := wrap32 (z.code * 10 + digitValue t.hundreds), count := z.count + 1 })
    t.secondGap t.tens_digit (by simp only; omega)
  rw [StatusLineText.codeFront, run_append_of_pending _ hFirst, hSecond]
  simp only [hCount]
  rfl

/-- The run over a whole status line, from a count of zero. It halts on the line feed,
at the label `done`. -/
theorem run_statusLine (t : StatusLineText) (hCount : z.count = 0) :
    run statusLineStep p ⟨.start, r, z⟩ t.bytes =
      .halted (p + t.bytes.length - 1) (.done (t.storeRequest p r) (t.storeStatus p z)) := by
  have hVersion : run statusLineStep p ⟨.start, r, z⟩ t.version.bytes =
      .pending ⟨.status, t.storeRequest p r, z⟩ := run_statusVersion t.version t.after_pos
  have hFront := (run_append_of_pending t.codeFront hVersion).trans (run_codeFront t hCount)
  have hUnits := statusLineStep_lastDigit (p := p + (t.version.bytes ++ t.codeFront).length)
    (r := t.storeRequest p r)
    (z := { z with code := decimal z.code [t.hundreds, t.tens], count := 2 }) t.units_digit rfl
  obtain ⟨s, hs, hTail⟩ := run_statusTail (p := p + (t.version.bytes ++ t.codeFront).length + 1)
    (r := t.storeRequest p r)
    (z := { z with
      code := wrap32 (decimal z.code [t.hundreds, t.tens] * 10 + digitValue t.units)
      count := 3
      start := p + (t.version.bytes ++ t.codeFront).length - 2 }) t.tail_text
  have hEnd : p + (t.version.bytes ++ t.codeFront).length + 1 + t.tail.length = p + t.front.length := by
    simp only [StatusLineText.front, List.length_append, List.length_cons]
    omega
  have hBytes : t.bytes = (t.version.bytes ++ t.codeFront) ++ (t.units :: (t.tail ++ lineBreak t.crlf)) := by
    simp only [StatusLineText.bytes, StatusLineText.front, List.append_assoc, List.cons_append]
  have hLength : p + t.bytes.length - 1 = p + t.front.length + (lineBreak t.crlf).length - 1 := by
    rw [StatusLineText.bytes, List.length_append, Nat.add_assoc]
  rw [hLength, hBytes, run_append_of_pending _ hFront, run_cons_next _ hUnits, run_append_of_pending _ hTail,
    run_statusBreak t.crlf hs, hEnd]
  rfl

/-- The parser on a status line at the buffer's position. -/
theorem ngxHttpParseStatusLine_of_text {mem : Mem} {b : LtBuffer} {rest : List UInt8} (t : StatusLineText)
    (hState : r.state = 0) (hCount : z.count = 0) (hUnread : b.unread mem = t.bytes ++ rest) :
    ngxHttpParseStatusLine mem r b z =
      (.lok, { t.storeRequest b.pos r with state := 0 }, { b with pos := b.pos + t.bytes.length },
        { t.storeStatus b.pos z with
          end_ := if (t.storeStatus b.pos z).end_ = 0 then b.pos + t.bytes.length - 1
            else (t.storeStatus b.pos z).end_
          httpVersion := wrap32 (t.version.majorValue * 1000 + t.version.minorValue) }) := by
  have hPos : 0 < t.bytes.length := by
    rw [StatusLineText.bytes, List.length_append, lineBreak_length]
    split_ifs <;> omega
  rw [ngxHttpParseStatusLine, hState, StatusLineState.ofNat?_zero]
  simp only [hUnread, run_append_of_halted rest (run_statusLine t hCount)]
  rw [Nat.sub_add_cancel (by omega)]
  rfl

/-- What has been read when `n` digits of the code have. -/
inductive CodeRead : Int → List UInt8 → Prop where
  | version (v : VersionText) (hAfter : 0 < v.after) : CodeRead 0 v.bytes
  | hundreds (v : VersionText) (hAfter : 0 < v.after) {c : UInt8} (n : Nat) (hDigit : IsDigit c) :
      CodeRead 1 (v.bytes ++ c :: List.replicate n sp)
  | tens (v : VersionText) (hAfter : 0 < v.after) {c d : UInt8} (n m : Nat) (hDigit : IsDigit c)
      (hDigit' : IsDigit d) : CodeRead 2 (v.bytes ++ ((c :: List.replicate n sp) ++ (d :: List.replicate m sp)))

/-- The letters of `HTTP/` read so far. -/
def StatusLineState.markRead : StatusLineState → List UInt8
  | .start => []
  | .h => [upperH]
  | .hT => [upperH, upperT]
  | .hTT => [upperH, upperT, upperT]
  | .hTTP => [upperH, upperT, upperT, upperP]
  | _ => replyMark

/-- What has been read in each state, with `n` digits of the code counted. -/
def StatusShape (s : StatusLineState) (n : Int) (w : List UInt8) : Prop :=
  match s with
  | .start | .h | .hT | .hTT | .hTTP | .firstMajorDigit => n = 0 ∧ w = s.markRead
  | .majorDigit => n = 0 ∧ ∃ c v, (one ≤ c ∧ c ≤ nine) ∧ (∀ d ∈ v, IsDigit d) ∧ w = replyMark ++ c :: v
  | .firstMinorDigit => n = 0 ∧ ∃ c v, (one ≤ c ∧ c ≤ nine) ∧ (∀ d ∈ v, IsDigit d) ∧
      w = replyMark ++ c :: (v ++ [dot])
  | .minorDigit => n = 0 ∧ ∃ v, VersionText.after v = 0 ∧ w = v.bytes
  | .status => CodeRead n w
  | .spaceAfterStatus => ∃ t, StatusLineText.tail t = [] ∧ w = t.front
  | .statusText => ∃ t, StatusLineText.tail t ≠ [] ∧ w = t.front
  | .almostDone => ∃ t, w = StatusLineText.front t ++ [cr]

/-- What has been read when the scan halts. -/
def StatusTextHalt (w : List UInt8) : StatusExit → Prop
  | .done _ _ => ∃ t, w = StatusLineText.bytes t
  | .error _ _ => True

theorem StatusLineText.front_lineFeed (t : StatusLineText) : ∃ u, t.front ++ [lf] = StatusLineText.bytes u :=
  ⟨{ t with crlf := false }, rfl⟩

section Shape

variable {w : List UInt8} {c : UInt8}

/-- One more letter of `HTTP/`. -/
theorem expectStatus_shape {d : UInt8} {s s' : StatusLineState} (h : z.count = 0 ∧ w = s.markRead)
    (hMark : s.markRead ++ [d] = s'.markRead)
    (hs : s' = .hT ∨ s' = .hTT ∨ s' = .hTTP ∨ s' = .firstMajorDigit) :
    (expectStatus d s' ⟨s, r, z⟩ c).All (fun σ => StatusShape σ.state σ.status.count (w ++ [c]))
      (StatusTextHalt (w ++ [c])) := by
  obtain ⟨hCount, rfl⟩ := h
  refine Verdict.all_ite (fun hc => ?_) fun _ => trivial
  subst hc
  rcases hs with rfl | rfl | rfl | rfl <;> exact ⟨hCount, hMark⟩

/-- A space behind a digit of the code, or in front of the first one. -/
theorem CodeRead.space {n : Int} (h : CodeRead n w) : CodeRead n (w ++ [sp]) := by
  cases h with
  | version v hAfter =>
      have hMore : v.bytes ++ [sp] = VersionText.bytes { v with after := v.after + 1 } := by
        simp [VersionText.bytes, VersionText.numbers, List.replicate_succ']
      rw [hMore]
      exact .version _ (Nat.succ_pos _)
  | @hundreds v hAfter c k hDigit =>
      have hRead := CodeRead.hundreds v hAfter (k + 1) hDigit
      rw [List.replicate_succ', ← List.cons_append, ← List.append_assoc] at hRead
      exact hRead
  | @tens v hAfter c d k m hDigit hDigit' =>
      have hRead := CodeRead.tens v hAfter k (m + 1) hDigit hDigit'
      simpa only [List.replicate_succ', List.cons_append, List.append_assoc] using hRead

/-- A digit of the code. -/
theorem CodeRead.digit {n : Int} (h : CodeRead n w) (hCount : z.count = n) (hDigit : IsDigit c) :
    (statusLineStep p ⟨.status, r, z⟩ c).All
      (fun σ => StatusShape σ.state σ.status.count (w ++ [c])) (StatusTextHalt (w ++ [c])) := by
  cases h with
  | version v hAfter =>
      rw [statusLineStep_codeDigit hDigit (by omega)]
      change CodeRead (z.count + 1) _
      rw [hCount]
      exact .hundreds v hAfter 0 hDigit
  | @hundreds v hAfter d k hHundreds =>
      rw [statusLineStep_codeDigit hDigit (by omega)]
      change CodeRead (z.count + 1) _
      rw [hCount, List.append_assoc]
      exact .tens v hAfter k 0 hHundreds hDigit
  | @tens v hAfter d e k m hHundreds hTens =>
      rw [statusLineStep_lastDigit hDigit hCount]
      refine ⟨⟨v, d, k, e, m, c, [], false, hAfter, hHundreds, hTens, hDigit, Or.inl rfl⟩, rfl, ?_⟩
      simp [StatusLineText.front, StatusLineText.codeFront]

/-- Every step reads on in the shape of its state. There is one case for each state of
the parser, and its byte tests split the case. -/
theorem statusShape_step {s : StatusLineState} (h : StatusShape s z.count w) :
    (statusLineStep p ⟨s, r, z⟩ c).All
      (fun σ => StatusShape σ.state σ.status.count (w ++ [c])) (StatusTextHalt (w ++ [c])) := by
  cases s with
  | start =>
      obtain ⟨hCount, rfl⟩ := h
      refine Verdict.all_ite (fun hc => ?_) fun _ => trivial
      subst hc
      exact ⟨hCount, rfl⟩
  | h => exact expectStatus_shape h rfl (Or.inl rfl)
  | hT => exact expectStatus_shape h rfl (Or.inr (Or.inl rfl))
  | hTT => exact expectStatus_shape h rfl (Or.inr (Or.inr (Or.inl rfl)))
  | hTTP => exact expectStatus_shape h rfl (Or.inr (Or.inr (Or.inr rfl)))
  | firstMajorDigit =>
      obtain ⟨hCount, rfl⟩ := h
      refine Verdict.all_ite (fun _ => trivial) fun hc => ?_
      have hRange := not_or.mp hc
      exact ⟨hCount, c, [], ⟨UInt8.not_lt.mp hRange.1, UInt8.not_lt.mp hRange.2⟩, by simp, rfl⟩
  | majorDigit =>
      obtain ⟨hCount, d, v, hd, hv, rfl⟩ := h
      refine Verdict.all_ite (fun hc => ?_) fun _ => Verdict.all_ite (fun _ => trivial) fun hc => ?_
      · subst hc
        exact ⟨hCount, d, v, hd, hv, by simp⟩
      · refine ⟨hCount, d, v ++ [c], hd, ?_, by simp⟩
        simpa [or_imp, forall_and] using And.intro hv (not_not.mp hc)
  | firstMinorDigit =>
      obtain ⟨hCount, d, v, hd, hv, rfl⟩ := h
      refine Verdict.all_ite (fun _ => trivial) fun hc => ?_
      refine ⟨hCount, (⟨d, v, c, [], 0, hd, hv, not_not.mp hc, by simp⟩ : VersionText), rfl, ?_⟩
      simp [VersionText.bytes, VersionText.numbers]
  | minorDigit =>
      obtain ⟨hCount, v, hAfter, rfl⟩ := h
      refine Verdict.all_ite (fun hc => ?_) fun _ => Verdict.all_ite (fun _ => trivial) fun hc => ?_
      · subst hc
        have hOne : v.bytes ++ [sp] = VersionText.bytes { v with after := 1 } := by
          simp [VersionText.bytes, VersionText.numbers, hAfter]
        change CodeRead z.count _
        rw [hCount, hOne]
        exact .version _ Nat.one_pos
      · refine ⟨hCount, { v with minorRest := v.minorRest ++ [c], minorRest_digit := ?_ }, hAfter, ?_⟩
        · simpa [or_imp, forall_and] using And.intro v.minorRest_digit (not_not.mp hc)
        · simp [VersionText.bytes, VersionText.numbers, hAfter]
  | status =>
      have hRead : CodeRead z.count w := h
      by_cases hSp : c = sp
      · subst hSp
        exact hRead.space
      by_cases hDigit : IsDigit c
      · exact hRead.digit rfl hDigit
      · simp only [statusLineStep, hSp, hDigit, not_false_iff, if_false, if_true]
        exact trivial
  | spaceAfterStatus =>
      obtain ⟨t, hTail, rfl⟩ := h
      refine Verdict.all_ite (fun hc => ?_) fun _ => Verdict.all_ite (fun hc => ?_) fun _ =>
        Verdict.all_ite (fun hc => ?_) fun _ => trivial
      · refine ⟨{ t with tail := [c], tail_text := Or.inr ⟨c, [], rfl, hc, by simp⟩ }, by simp, ?_⟩
        simp [StatusLineText.front, StatusLineText.codeFront, hTail]
      · subst hc
        exact ⟨t, rfl⟩
      · subst hc
        exact t.front_lineFeed
  | statusText =>
      obtain ⟨t, hTail, rfl⟩ := h
      refine Verdict.all_ite (fun hc => ?_) fun hCr => Verdict.all_ite (fun hc => ?_) fun hLf => ?_
      · subst hc
        exact ⟨t, rfl⟩
      · subst hc
        exact t.front_lineFeed
      · obtain ⟨d, v, hEq, hd, hv⟩ := t.tail_text.resolve_left hTail
        have hText : StatusTail (t.tail ++ [c]) := by
          refine Or.inr ⟨d, v ++ [c], by rw [hEq]; rfl, hd, ?_⟩
          exact List.forall_mem_append.mpr ⟨hv, List.forall_mem_singleton.mpr ⟨hCr, hLf⟩⟩
        refine ⟨{ t with tail := t.tail ++ [c], tail_text := hText }, by simp, ?_⟩
        simp [StatusLineText.front, StatusLineText.codeFront]
  | almostDone =>
      obtain ⟨t, rfl⟩ := h
      refine Verdict.all_ite (fun hc => ?_) fun _ => trivial
      subst hc
      exact ⟨{ t with crlf := true }, by rw [List.append_assoc]; rfl⟩

end Shape

/-- The parser accepts only the texts of status lines. The count must be zero, as it is
what tells the last digit of the code. -/
theorem exists_statusLineText {mem : Mem} {r r' : RequestT} {b b' : LtBuffer} {status status' : HttpStatus}
    (hState : r.state = 0) (hCount : status.count = 0)
    (h : ngxHttpParseStatusLine mem r b status = (.lok, r', b', status')) :
    ∃ t rest, b.unread mem = StatusLineText.bytes t ++ rest := by
  rw [ngxHttpParseStatusLine, hState, StatusLineState.ofNat?_zero] at h
  simp only [LtBuffer.unread] at h ⊢
  by_cases hPos : b.pos ≤ b.last
  · have hAll := run_slice_all (M := statusLineStep) (m := mem) (q := b.last) (s := ⟨.start, r, status⟩)
      (I := fun x σ => StatusShape σ.state σ.status.count (slice mem b.pos x))
      (Q := fun x e => StatusTextHalt (slice mem b.pos (x + 1)) e)
      (fun x σ hLow _ _ hShape => by
        rw [slice_succ hLow]
        exact statusShape_step hShape) hPos ⟨hCount, slice_self _ _⟩
    cases hRun : run statusLineStep b.pos ⟨.start, r, status⟩ (slice mem b.pos b.last) with
    | pending σ =>
        rw [hRun] at h
        cases congrArg Prod.fst h
    | halted x e =>
        rw [hRun] at h hAll
        cases e with
        | error q z => cases congrArg Prod.fst h
        | done q z =>
            obtain ⟨hLow, hHigh, t, ht⟩ := hAll
            exact ⟨t, slice mem (x + 1) b.last, by rw [← ht, slice_append (by omega) (by omega)]⟩
  · rw [slice_of_le (by omega)] at h
    cases congrArg Prod.fst h

end Leactor
