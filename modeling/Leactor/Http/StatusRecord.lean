import Leactor.Http.Accepted
import Leactor.Parse.Version

/-! What is stored of an accepted status line. The code is read over the spaces
between its digits, and the slice of the protocol lacks its last byte. -/
namespace Leactor

open Ascii Scan Memory

/-- The status records the code of the line `t` at `p`, as the three bytes from `start` on. -/
structure RecordsCode (mem : Mem) (t : StatusLineText) (p : Nat) (status : HttpStatus) : Prop where
  digits : ∀ c ∈ slice mem status.start (status.start + 3), IsDigit c
  code : status.code = placeValue 0 (slice mem status.start (status.start + 3))
  range : 0 ≤ status.code ∧ status.code ≤ 999
  end_ : status.end_ = p + t.front.length

/-- The slice of the protocol reaches from the `H` at `p` to the last digit of the version. -/
def CoversProtocol (t : StatusLineText) (p : Nat) (r : RequestT) : Prop :=
  r.httpProtocol.data = p ∧ r.httpProtocol.length = t.protocol.length

structure RecordsLine (mem : Mem) (b : LtBuffer) (t : StatusLineText) (r : RequestT) (b' : LtBuffer)
    (status : HttpStatus) : Prop where
  text : ∃ rest, b.unread mem = t.bytes ++ rest
  buf : b'.pos = b.pos + t.bytes.length
  consecutive : t.Consecutive
  code : RecordsCode mem t b.pos status
  protocol : CoversProtocol t b.pos (storeStatusLine r status)

section Code

variable {mem : Mem} {p e : Nat} {rest : List UInt8} {t : StatusLineText}

theorem StatusLineText.codeValue_bounds (t : StatusLineText) :
    decimal 0 [t.hundreds, t.tens, t.units] = placeValue 0 [t.hundreds, t.tens, t.units] ∧
      0 ≤ placeValue 0 [t.hundreds, t.tens, t.units] ∧ placeValue 0 [t.hundreds, t.tens, t.units] ≤ 999 := by
  have hHundreds := digitValue_bounds _ t.hundreds_digit
  have hTens := digitValue_bounds _ t.tens_digit
  have hUnits := digitValue_bounds _ t.units_digit
  have hValue : placeValue 0 [t.hundreds, t.tens, t.units] =
      digitValue t.hundreds * 100 + digitValue t.tens * 10 + digitValue t.units := by
    simp only [placeValue, List.foldl_cons, List.foldl_nil]
    omega
  have hDigits : ∀ c ∈ [t.hundreds, t.tens, t.units], IsDigit c := by
    simp [t.hundreds_digit, t.tens_digit, t.units_digit]
  exact ⟨((decimal_exact_iff (Int.le_refl 0) (by decide) hDigits).mpr (by omega)).2, by omega, by omega⟩

/-- Without spaces between its digits the code stands where its record starts. -/
theorem slice_code (h : slice mem p e = t.bytes ++ rest) (hConsecutive : t.Consecutive) :
    slice mem (p + (t.version.bytes ++ t.codeFront).length - 2)
      (p + (t.version.bytes ++ t.codeFront).length - 2 + 3) = [t.hundreds, t.tens, t.units] := by
  have hFront : t.codeFront = [t.hundreds, t.tens] := by
    rw [StatusLineText.codeFront, hConsecutive.1, hConsecutive.2]
    rfl
  have hStart : p + (t.version.bytes ++ t.codeFront).length - 2 = p + t.version.bytes.length := by
    rw [hFront, List.length_append, List.length_cons, List.length_singleton]
    omega
  rw [StatusLineText.bytes, StatusLineText.front, hFront, List.append_assoc, List.append_assoc] at h
  have hCode : slice mem (p + t.version.bytes.length) e =
      [t.hundreds, t.tens, t.units] ++ (t.tail ++ (lineBreak t.crlf ++ rest)) := by
    rw [(slice_eq_append h).2]
    simp only [List.cons_append, List.nil_append]
  rw [hStart]
  exact (slice_eq_append hCode).1

/-- Digits at the start of the record leave no room for a space between them. -/
theorem consecutive_of_digits (h : slice mem p e = t.bytes ++ rest)
    (hDigits : ∀ c ∈ slice mem (p + (t.version.bytes ++ t.codeFront).length - 2)
      (p + (t.version.bytes ++ t.codeFront).length - 2 + 3), IsDigit c) : t.Consecutive := by
  have hSpace : ∀ x after, slice mem p e = x ++ sp :: after →
      p + (t.version.bytes ++ t.codeFront).length - 2 ≤ p + x.length →
      p + x.length < p + (t.version.bytes ++ t.codeFront).length - 2 + 3 → False := by
    intro x after hSlice hLow hHigh
    have hByte := (slice_eq_cons (slice_eq_append hSlice).2).2.1
    exact absurd (hDigits sp (mem_slice.mpr ⟨_, hLow, hHigh, hByte⟩)) (by decide)
  have hLength : (t.version.bytes ++ t.codeFront).length =
      t.version.bytes.length + t.firstGap + t.secondGap + 2 := by
    simp only [StatusLineText.codeFront, List.length_append, List.length_cons, List.length_replicate]
    omega
  have hSecond : t.secondGap = 0 := by
    by_contra hGap
    obtain ⟨n, hn⟩ := Nat.exists_eq_succ_of_ne_zero hGap
    refine hSpace (t.version.bytes ++ ((t.hundreds :: List.replicate t.firstGap sp) ++
      (t.tens :: List.replicate n sp))) (t.units :: (t.tail ++ (lineBreak t.crlf ++ rest))) (h.trans ?_) ?_ ?_
    · simp only [StatusLineText.bytes, StatusLineText.front, StatusLineText.codeFront, hn, List.replicate_succ',
        Nat.succ_eq_add_one, List.append_assoc, List.cons_append, List.nil_append]
    all_goals
      simp only [List.length_append, List.length_cons, List.length_replicate] at hLength ⊢
      omega
  refine ⟨?_, hSecond⟩
  by_contra hGap
  obtain ⟨n, hn⟩ := Nat.exists_eq_succ_of_ne_zero hGap
  refine hSpace (t.version.bytes ++ (t.hundreds :: List.replicate n sp))
    (t.tens :: t.units :: (t.tail ++ (lineBreak t.crlf ++ rest))) (h.trans ?_) ?_ ?_
  · simp only [StatusLineText.bytes, StatusLineText.front, StatusLineText.codeFront, hn, hSecond,
      List.replicate_succ', List.replicate_zero, Nat.succ_eq_add_one, List.append_assoc, List.cons_append,
      List.nil_append]
  all_goals
    simp only [List.length_append, List.length_cons, List.length_replicate] at hLength ⊢
    omega

/-- The end that a zeroed status gets: the carriage return, or else the line feed. -/
theorem StatusLineText.end_of_zero (t : StatusLineText) (p : Nat) :
    (if (t.storeStatus p {}).end_ = 0 then p + t.bytes.length - 1 else (t.storeStatus p {}).end_) =
      p + t.front.length := by
  have hFront : 0 < t.front.length := by
    simp only [front, List.length_append, List.length_cons]
    omega
  have hBytes : t.bytes.length = t.front.length + (lineBreak t.crlf).length := List.length_append
  have hEnd : (t.storeStatus p {}).end_ = if t.crlf then p + t.front.length else 0 := rfl
  rw [hEnd, hBytes, lineBreak_length]
  cases t.crlf with
  | true =>
      rw [if_pos rfl, if_neg (by omega)]
  | false =>
      rw [if_neg Bool.false_ne_true, if_pos rfl, if_neg Bool.false_ne_true]
      omega

end Code

variable {mem : Mem} {r r' : RequestT} {b b' : LtBuffer} {status : HttpStatus} {rest : List UInt8}

/-- What the parser stores of a status line, with a zeroed status. The slice of the
protocol is short by its last byte in every case. -/
theorem statusLine_stored (t : StatusLineText) (hState : r.state = 0)
    (h : ngxHttpParseStatusLine mem r b {} = (.lok, r', b', status)) (hUnread : b.unread mem = t.bytes ++ rest) :
    b' = { b with pos := b.pos + t.bytes.length } ∧ (RecordsCode mem t b.pos status ↔ t.Consecutive) ∧
      ¬ CoversProtocol t b.pos (storeStatusLine r' status) := by
  have hParse := ngxHttpParseStatusLine_of_text (r := r) (z := {}) t hState rfl hUnread
  rw [h, Prod.mk.injEq, Prod.mk.injEq, Prod.mk.injEq] at hParse
  obtain ⟨-, rfl, rfl, rfl⟩ := hParse
  refine ⟨rfl, ⟨fun hCode => consecutive_of_digits hUnread hCode.digits, fun hConsecutive => ?_⟩, ?_⟩
  · obtain ⟨hExact, hRange⟩ := t.codeValue_bounds
    have hSlice := slice_code hUnread hConsecutive
    refine ⟨fun c hc => ?_, hExact.trans (congrArg (placeValue 0) hSlice.symm), ?_, t.end_of_zero b.pos⟩
    · have hMem : c ∈ [t.hundreds, t.tens, t.units] := hSlice ▸ hc
      simp only [List.mem_cons, List.not_mem_nil, or_false] at hMem
      rcases hMem with rfl | rfl | rfl
      · exact t.hundreds_digit
      · exact t.tens_digit
      · exact t.units_digit
    · change 0 ≤ decimal 0 [t.hundreds, t.tens, t.units] ∧ decimal 0 [t.hundreds, t.tens, t.units] ≤ 999
      rwa [hExact]
  · rintro ⟨-, hLength⟩
    -- the end of the protocol is its last byte, so that the difference is one too small
    have hWrap : wrap32 (((b.pos + t.protocol.length - 1 : Nat) : Int) - (b.pos : Int)) = t.protocol.length :=
      hLength
    have hDvd := Int.dvd_bmod_sub_self (x := ((b.pos + t.protocol.length - 1 : Nat) : Int) - (b.pos : Int))
      (m := 2 ^ 32)
    rw [show Int.bmod _ _ = _ from hWrap] at hDvd
    have hPos : 0 < t.protocol.length := by
      simp only [StatusLineText.protocol, List.length_append]
      exact Nat.add_pos_left (by decide) _
    omega

/-- A status line that is accepted from a zeroed status is never recorded as it was
sent: the slice of its protocol ends one byte early. Its code is recorded exactly if
no space stands between the digits. -/
theorem statusLine_recorded (hState : r.state = 0)
    (h : ngxHttpParseStatusLine mem r b {} = (.lok, r', b', status)) :
    (∀ t, ¬ RecordsLine mem b t r' b' status) ∧ (∃ t rest, b.unread mem = StatusLineText.bytes t ++ rest) ∧
      ∀ t rest, b.unread mem = StatusLineText.bytes t ++ rest →
        b' = { b with pos := b.pos + t.bytes.length } ∧ (RecordsCode mem t b.pos status ↔ t.Consecutive) ∧
          ¬ CoversProtocol t b.pos (storeStatusLine r' status) := by
  refine ⟨fun t hLine => ?_, exists_statusLineText hState rfl h,
    fun t rest hUnread => statusLine_stored t hState h hUnread⟩
  obtain ⟨rest, hUnread⟩ := hLine.text
  exact (statusLine_stored t hState h hUnread).2.2 hLine.protocol

/-- The status line `HTTP/1.1 200 OK`. -/
def okLine : List UInt8 :=
  ofChars ['H', 'T', 'T', 'P', '/', '1', '.', '1', ' ', '2', '0', '0', ' ', 'O', 'K'] ++ [cr, lf]

def parsedOk : Res × RequestT × LtBuffer × HttpStatus :=
  ngxHttpParseStatusLine (place (fun _ => 0) 1 okLine) {} (lineBuffer okLine) {}

theorem parsedOk_fst : parsedOk.1 = .lok := by decide

theorem statusLine_recorded_ok :
    (¬ ∃ t, RecordsLine (place (fun _ => 0) 1 okLine) (lineBuffer okLine) t parsedOk.2.1 parsedOk.2.2.1
      parsedOk.2.2.2) ∧
      ∃ t rest, (lineBuffer okLine).unread (place (fun _ => 0) 1 okLine) = StatusLineText.bytes t ++ rest := by
  obtain ⟨hNone, hText, -⟩ := statusLine_recorded rfl (Prod.ext parsedOk_fst rfl : _ = (Res.lok, _))
  exact ⟨fun ⟨t, hLine⟩ => hNone t hLine, hText⟩

/-- The protocol of `HTTP/1.1 200 OK` is stored as `HTTP/1.`. -/
theorem not_recordsLine :
    ¬ ∀ (mem : Mem) (r r' : RequestT) (b b' : LtBuffer) (status : HttpStatus), r.state = 0 →
      ngxHttpParseStatusLine mem r b {} = (.lok, r', b', status) → ∃ t, RecordsLine mem b t r' b' status := by
  intro hClaim
  obtain ⟨t, ⟨rest, hUnread⟩, -, -, -, hProtocol⟩ :=
    hClaim (place (fun _ => 0) 1 okLine) {} parsedOk.2.1 (lineBuffer okLine) parsedOk.2.2.1 parsedOk.2.2.2 rfl
      (Prod.ext parsedOk_fst rfl)
  exact (statusLine_stored (r := {}) t rfl (Prod.ext parsedOk_fst rfl) hUnread).2.2 hProtocol

end Leactor
