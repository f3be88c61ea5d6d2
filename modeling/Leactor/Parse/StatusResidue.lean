import Leactor.Parse.StatusText

/-! What an old status leaves in the parse of the next status line. The parser goes on
counting the digits of the code where the last line left off. -/
namespace Leactor

open Ascii Scan Memory

/-- How many digits the parser still takes for a code, when `count` have been counted. -/
def digitsLeft (count : Int) : Nat := ((2 - count) % 2 ^ 32).toNat + 1

/-- The old contents that show in the parse of a status line. -/
structure SameStatusResidue (z z' : HttpStatus) : Prop where
  count : wrap32 z.count = wrap32 z'.count
  code : wrap32 (z.code * 10 ^ digitsLeft z.count) = wrap32 (z'.code * 10 ^ digitsLeft z.count)
  end_ : z.end_ = z'.end_

/-- The old contents that show in the parse of a status line of at most `size` bytes. Where both
ask for more digits than such a line has room for, nothing of them does. -/
def StatusAlike (size : Nat) (z z' : HttpStatus) : Prop :=
  SameStatusResidue z z' ∨ size < digitsLeft z.count + 10 ∧ size < digitsLeft z'.count + 10

theorem digitsLeft_congr {c d : Int} (h : wrap32 c = wrap32 d) : digitsLeft c = digitsLeft d := by
  unfold wrap32 at h
  rw [Int.bmod_def, Int.bmod_def] at h
  unfold digitsLeft
  split_ifs at h <;> omega

theorem SameStatusResidue.symm {z z' : HttpStatus} (h : SameStatusResidue z z') : SameStatusResidue z' z where
  count := h.count.symm
  code := by rw [← digitsLeft_congr h.count, h.code]
  end_ := h.end_.symm

theorem StatusAlike.symm {size : Nat} {z z' : HttpStatus} (h : StatusAlike size z z') : StatusAlike size z' z :=
  h.imp SameStatusResidue.symm And.symm

/-- The digit that brings the count to three is the last one. -/
theorem wrap32_succ_eq_three {c : Int} : wrap32 (c + 1) = 3 ↔ digitsLeft c = 1 := by
  unfold wrap32 digitsLeft
  rw [Int.bmod_def]
  split_ifs <;> omega

theorem digitsLeft_succ {c : Int} (h : wrap32 (c + 1) ≠ 3) : digitsLeft c = digitsLeft (wrap32 (c + 1)) + 1 := by
  unfold wrap32 at h ⊢
  unfold digitsLeft
  rw [Int.bmod_def] at h ⊢
  split_ifs at h ⊢ <;> omega

/-- One more digit of a code. -/
theorem wrap32_digit (a d : Int) (n : Nat) :
    wrap32 (wrap32 (a * 10 + d) * 10 ^ n) = wrap32 (a * 10 ^ (n + 1) + d * 10 ^ n) := by
  rw [wrap32, wrap32, Int.bmod_mul_bmod, Int.add_mul, Int.mul_assoc, ← Int.pow_succ', wrap32]

theorem SameStatusResidue.digit {z z' : HttpStatus} {d : Int} (h : SameStatusResidue z z')
    (hMore : wrap32 (z.count + 1) ≠ 3) :
    SameStatusResidue { z with code := wrap32 (z.code * 10 + d), count := wrap32 (z.count + 1) }
      { z' with code := wrap32 (z'.code * 10 + d), count := wrap32 (z'.count + 1) } := by
  have hCount : wrap32 (z.count + 1) = wrap32 (z'.count + 1) := Int.add_bmod_eq_add_bmod_right 1 h.count
  refine ⟨by simp only [hCount], ?_, h.end_⟩
  have hCode := h.code
  rw [digitsLeft_succ hMore] at hCode
  simp only [wrap32_digit]
  exact Int.add_bmod_eq_add_bmod_right _ hCode

/-- Two scans of a status line from the same residue. -/
structure StatusTwins (σ τ : StatusLineScan) : Prop where
  state : σ.state = τ.state
  end_ : σ.status.end_ = τ.status.end_
  early : σ.state.toNat ≤ StatusLineState.toNat .status → SameStatusResidue σ.status τ.status
  first : StatusLineState.toNat .h ≤ σ.state.toNat → σ.req.requestStart = τ.req.requestStart
  major : StatusLineState.toNat .majorDigit ≤ σ.state.toNat → σ.req.httpMajor = τ.req.httpMajor
  minor : StatusLineState.toNat .minorDigit ≤ σ.state.toNat → σ.req.httpMinor = τ.req.httpMinor
  late : StatusLineState.toNat .spaceAfterStatus ≤ σ.state.toNat →
    σ.status.code = τ.status.code ∧ σ.status.count = τ.status.count ∧ σ.status.start = τ.status.start

structure TwinLine (r r' : RequestT) (z z' : HttpStatus) : Prop where
  first : r.requestStart = r'.requestStart
  major : r.httpMajor = r'.httpMajor
  minor : r.httpMinor = r'.httpMinor
  code : z.code = z'.code
  count : z.count = z'.count
  start : z.start = z'.start
  end_ : z.end_ = z'.end_

def StatusExit.Twins : StatusExit → StatusExit → Prop
  | .done r z, .done r' z' => TwinLine r r' z z'
  | .error _ _, .error _ _ => True
  | _, _ => False

section Twins

variable {r r' : RequestT} {z z' : HttpStatus}

theorem StatusTwins.done {s : StatusLineState} (h : StatusTwins ⟨s, r, z⟩ ⟨s, r', z'⟩)
    (hState : StatusLineState.toNat .spaceAfterStatus ≤ s.toNat) : TwinLine r r' z z' := by
  obtain ⟨hCode, hCount, hStart⟩ := h.late hState
  exact ⟨h.first (Nat.le_trans (by decide) hState), h.major (Nat.le_trans (by decide) hState),
    h.minor (Nat.le_trans (by decide) hState), hCode, hCount, hStart, h.end_⟩

theorem TwinLine.twins (h : TwinLine r r' z z') (s : StatusLineState)
    (hState : StatusLineState.toNat .spaceAfterStatus ≤ s.toNat) : StatusTwins ⟨s, r, z⟩ ⟨s, r', z'⟩ where
  state := rfl
  end_ := h.end_
  early hEarly := absurd (Nat.le_trans hState hEarly) (by decide)
  first _ := h.first
  major _ := h.major
  minor _ := h.minor
  late _ := ⟨h.code, h.count, h.start⟩

/-- Two scans in front of the last digit of the code. -/
theorem SameStatusResidue.twins (h : SameStatusResidue z z') (s : StatusLineState)
    (hState : s.toNat ≤ StatusLineState.toNat .status)
    (hFirst : StatusLineState.toNat .h ≤ s.toNat → r.requestStart = r'.requestStart)
    (hMajor : StatusLineState.toNat .majorDigit ≤ s.toNat → r.httpMajor = r'.httpMajor)
    (hMinor : StatusLineState.toNat .minorDigit ≤ s.toNat → r.httpMinor = r'.httpMinor) :
    StatusTwins ⟨s, r, z⟩ ⟨s, r', z'⟩ where
  state := rfl
  end_ := h.end_
  early _ := h
  first := hFirst
  major := hMajor
  minor := hMinor
  late hLate := absurd (Nat.le_trans hLate hState) (by decide)

theorem expectStatus_twins {c : UInt8} {s t : StatusLineState} (ch : UInt8)
    (h : StatusTwins ⟨s, r, z⟩ ⟨s, r', z'⟩)
    (hs : StatusLineState.toNat .h ≤ s.toNat ∧ s.toNat ≤ StatusLineState.toNat .status)
    (ht : t.toNat < StatusLineState.toNat .majorDigit) :
    (expectStatus c t ⟨s, r, z⟩ ch).Rel StatusTwins StatusExit.Twins (expectStatus c t ⟨s, r', z'⟩ ch) := by
  refine Verdict.rel_ite (fun _ => ?_) fun _ => trivial
  refine (h.early hs.2).twins t ?_ (fun _ => h.first hs.1) (fun hLe => ?_) fun hLe => ?_
  · exact Nat.le_trans (Nat.le_of_lt ht) (by decide)
  · exact absurd ht (Nat.not_lt.mpr hLe)
  · exact absurd ht (Nat.not_lt.mpr (Nat.le_trans (by decide) hLe))

end Twins

/-- A byte keeps the two scans together, one case for each state. Where one of them
halts the other one does, with the same code. -/
theorem statusLineStep_twins {p : Nat} {σ τ : StatusLineScan} (ch : UInt8) (h : StatusTwins σ τ) :
    (statusLineStep p σ ch).Rel StatusTwins StatusExit.Twins (statusLineStep p τ ch) := by
  obtain ⟨s, r, z⟩ := σ
  obtain ⟨t, r', z'⟩ := τ
  obtain rfl : s = t := h.state
  have hEarly : s.toNat ≤ StatusLineState.toNat .status → SameStatusResidue z z' := h.early
  have hFirst : StatusLineState.toNat .h ≤ s.toNat → r.requestStart = r'.requestStart := h.first
  have hMajor : StatusLineState.toNat .majorDigit ≤ s.toNat → r.httpMajor = r'.httpMajor := h.major
  have hMinor : StatusLineState.toNat .minorDigit ≤ s.toNat → r.httpMinor = r'.httpMinor := h.minor
  unfold statusLineStep
  cases s with
  | start =>
      refine Verdict.rel_ite (fun _ => ?_) fun _ => trivial
      exact (hEarly (by decide)).twins .h (by decide) (fun _ => rfl) (fun hLe => absurd hLe (by decide))
        fun hLe => absurd hLe (by decide)
  | h | hT | hTT | hTTP => exact expectStatus_twins ch h (by decide) (by decide)
  | firstMajorDigit =>
      refine Verdict.rel_ite (fun _ => trivial) fun _ => ?_
      exact (hEarly (by decide)).twins .majorDigit (by decide) (fun _ => hFirst (by decide)) (fun _ => rfl)
        fun hLe => absurd hLe (by decide)
  | majorDigit =>
      have hSame := hMajor (by decide)
      refine Verdict.rel_ite (fun _ => ?_) fun _ => Verdict.rel_ite (fun _ => trivial) fun _ => ?_
      · exact (hEarly (by decide)).twins .firstMinorDigit (by decide) (fun _ => hFirst (by decide))
          (fun _ => hSame) fun hLe => absurd hLe (by decide)
      · exact (hEarly (by decide)).twins .majorDigit (by decide) (fun _ => hFirst (by decide))
          (fun _ => by simp only [hSame]) fun hLe => absurd hLe (by decide)
  | firstMinorDigit =>
      refine Verdict.rel_ite (fun _ => trivial) fun _ => ?_
      exact (hEarly (by decide)).twins .minorDigit (by decide) (fun _ => hFirst (by decide))
        (fun _ => hMajor (by decide)) fun _ => rfl
  | minorDigit =>
      have hSame := hMinor (by decide)
      refine Verdict.rel_ite (fun _ => ?_) fun _ => Verdict.rel_ite (fun _ => trivial) fun _ => ?_
      · exact (hEarly (by decide)).twins .status (by decide) (fun _ => hFirst (by decide))
          (fun _ => hMajor (by decide)) fun _ => hSame
      · exact (hEarly (by decide)).twins .minorDigit (by decide) (fun _ => hFirst (by decide))
          (fun _ => hMajor (by decide)) fun _ => by simp only [hSame]
  | status =>
      have hOld : SameStatusResidue z z' := hEarly (by decide)
      have hCount : wrap32 (z.count + 1) = wrap32 (z'.count + 1) := Int.add_bmod_eq_add_bmod_right 1 hOld.count
      refine Verdict.rel_ite (fun _ => h) fun _ => Verdict.rel_ite (fun _ => trivial) fun _ => ?_
      simp only [← hCount]
      refine Verdict.rel_ite (fun hLast => ?_) fun hMore => ?_
      · -- the last digit makes the two codes one
        have hCode := hOld.code
        rw [wrap32_succ_eq_three.mp hLast, Int.pow_succ, Int.pow_zero, Int.one_mul] at hCode
        have hSame : wrap32 (z.code * 10 + digitValue ch) = wrap32 (z'.code * 10 + digitValue ch) :=
          Int.add_bmod_eq_add_bmod_right _ hCode
        refine TwinLine.twins ?_ .spaceAfterStatus (by decide)
        exact ⟨hFirst (by decide), hMajor (by decide), hMinor (by decide), hSame, rfl, rfl, h.end_⟩
      · have hNext := hOld.digit (d := digitValue ch) hMore
        rw [← hCount] at hNext
        exact hNext.twins .status (by decide) h.first h.major h.minor
  | spaceAfterStatus =>
      have hDone := h.done (by decide)
      exact Verdict.rel_ite (fun _ => hDone.twins .statusText (by decide)) fun _ =>
        Verdict.rel_ite (fun _ => hDone.twins .almostDone (by decide)) fun _ =>
          Verdict.rel_ite (fun _ => hDone) fun _ => trivial
  | statusText =>
      have hDone := h.done (by decide)
      exact Verdict.rel_ite (fun _ => hDone.twins .almostDone (by decide)) fun _ =>
        Verdict.rel_ite (fun _ => hDone) fun _ => h
  | almostDone =>
      have hDone := h.done (by decide)
      exact Verdict.rel_ite (fun _ => { hDone with end_ := rfl }) fun _ => trivial

/-- With the same residue the parser answers alike, on every buffer. Behind an accepted
line the whole status is the same. -/
theorem ngxHttpParseStatusLine_sameResidue (mem : Mem) (b : LtBuffer) {r r' : RequestT} {z z' : HttpStatus}
    (hState : r.state = 0) (hState' : r'.state = 0) (h : SameStatusResidue z z') :
    (ngxHttpParseStatusLine mem r b z).1 = (ngxHttpParseStatusLine mem r' b z').1 ∧
      (ngxHttpParseStatusLine mem r b z).2.2.1 = (ngxHttpParseStatusLine mem r' b z').2.2.1 ∧
      ((ngxHttpParseStatusLine mem r b z).1 = .lok →
        (ngxHttpParseStatusLine mem r b z).2.2.2 = (ngxHttpParseStatusLine mem r' b z').2.2.2 ∧
        (ngxHttpParseStatusLine mem r b z).2.1.requestStart =
          (ngxHttpParseStatusLine mem r' b z').2.1.requestStart) := by
  have hSim := run_sim (M := statusLineStep) (N := statusLineStep) (p := b.pos) (q := b.pos)
    (R := fun _ => StatusTwins) (S := fun _ => StatusExit.Twins) (n := 0) (w := b.unread mem)
    (s := ⟨.start, r, z⟩) (t := ⟨.start, r', z'⟩) (fun _ _ _ _ c _ h => statusLineStep_twins c h)
    (h.twins .start (by decide) (fun hLe => absurd hLe (by decide)) (fun hLe => absurd hLe (by decide))
      fun hLe => absurd hLe (by decide))
  rw [Nat.add_zero] at hSim
  simp only [ngxHttpParseStatusLine, hState, hState', StatusLineState.ofNat?_zero]
  revert hSim
  cases run statusLineStep b.pos ⟨.start, r, z⟩ (b.unread mem) with
  | pending σ =>
      cases run statusLineStep b.pos ⟨.start, r', z'⟩ (b.unread mem) with
      | pending τ => exact fun _ => ⟨rfl, rfl, fun hLok => by cases hLok⟩
      | halted y e' => exact False.elim
  | halted x e =>
      cases run statusLineStep b.pos ⟨.start, r', z'⟩ (b.unread mem) with
      | pending τ => exact False.elim
      | halted y e' =>
          rintro ⟨i, -, rfl, rfl, hExit⟩
          cases e with
          | error q y =>
              cases e' with
              | error q' y' => exact ⟨rfl, rfl, fun hLok => by cases hLok⟩
              | done q' y' => exact hExit.elim
          | done q y =>
              cases e' with
              | error q' y' => exact hExit.elim
              | done q' y' =>
                  obtain ⟨hFirst, hMajor, hMinor, hCode, hCount, hStart, hEnd⟩ := hExit
                  refine ⟨rfl, rfl, fun _ => ⟨?_, hFirst⟩⟩
                  simp only [hMajor, hMinor, hCode, hCount, hStart, hEnd]

/-- A row of zeros as long as the count asks for is a whole code. -/
theorem run_zeros {p : Nat} {r : RequestT} (n : Nat) (z : HttpStatus) (hn : n < digitsLeft z.count) :
    ∃ z', run statusLineStep p ⟨.status, r, z⟩ (List.replicate n zero) = .pending ⟨.status, r, z'⟩ ∧
      wrap32 z'.code = wrap32 (z.code * 10 ^ n) ∧ digitsLeft z'.count + n = digitsLeft z.count ∧
      z'.end_ = z.end_ := by
  induction n generalizing p z with
  | zero => exact ⟨z, rfl, by rw [Int.pow_zero, Int.mul_one], rfl, rfl⟩
  | succ n ih =>
      have hMore : wrap32 (z.count + 1) ≠ 3 := by
        rw [Ne, wrap32_succ_eq_three]
        omega
      have hLeft := digitsLeft_succ hMore
      have hStep : statusLineStep p ⟨.status, r, z⟩ zero = .next ⟨.status, r,
          { z with code := wrap32 (z.code * 10 + 0), count := wrap32 (z.count + 1) }⟩ := by
        simp only [statusLineStep, (digit_ne zero digit_zero).2.2.2, digit_zero, not_true, if_false]
        rw [if_neg hMore]
        rfl
      obtain ⟨z', hRun, hCode, hCount, hEnd⟩ := ih (p := p + 1)
        { z with code := wrap32 (z.code * 10 + 0), count := wrap32 (z.count + 1) } (by simp only; omega)
      refine ⟨z', ?_, ?_, by simp only at hCount; omega, hEnd⟩
      · rw [List.replicate_succ, run_cons_next _ hStep, hRun]
      · rw [hCode, wrap32_digit, Int.zero_mul, Int.add_zero]

theorem statusLineStep_lastZero {p : Nat} {r : RequestT} {z : HttpStatus} (hLast : digitsLeft z.count = 1) :
    statusLineStep p ⟨.status, r, z⟩ zero =
      .next ⟨.spaceAfterStatus, r, { z with code := wrap32 (z.code * 10), count := 3, start := p - 2 }⟩ := by
  have hCount := wrap32_succ_eq_three.mpr hLast
  simp only [statusLineStep, (digit_ne zero digit_zero).2.2.2, digit_zero, not_true, if_false, hCount, if_true]
  rw [show digitValue zero = 0 from rfl, Int.add_zero]

/-- A status line whose code is a row of zeros. -/
def zerosLine (n : Nat) : List UInt8 :=
  ofChars ['H', 'T', 'T', 'P', '/', '1', '.', '0', ' '] ++ (List.replicate n zero ++ [lf])

/-- The line in front of its code. -/
theorem run_zerosLine (p : Nat) (r : RequestT) (z : HttpStatus) : ∃ q, ∀ n,
    run statusLineStep p ⟨.start, r, z⟩ (zerosLine n) =
      run statusLineStep (p + 9) ⟨.status, q, z⟩ (List.replicate n zero ++ [lf]) := by
  obtain ⟨q, hFront⟩ : ∃ q, run statusLineStep p ⟨.start, r, z⟩
      (ofChars ['H', 'T', 'T', 'P', '/', '1', '.', '0', ' ']) = .pending ⟨.status, q, z⟩ := ⟨_, rfl⟩
  exact ⟨q, fun n => run_append_of_pending _ hFront⟩

/-- The row of zeros is a whole code, whatever count the status began with, and
multiplies what the code was before. -/
theorem ngxHttpParseStatusLine_zeros {mem : Mem} {r : RequestT} {b : LtBuffer} {z : HttpStatus}
    (hState : r.state = 0) (hUnread : b.unread mem = zerosLine (digitsLeft z.count)) :
    ∃ r' b' z', ngxHttpParseStatusLine mem r b z = (.lok, r', b', z') ∧
      z'.code = wrap32 (z.code * 10 ^ digitsLeft z.count) ∧
      z'.end_ = if z.end_ = 0 then b.pos + 9 + digitsLeft z.count else z.end_ := by
  obtain ⟨q, hFront⟩ := run_zerosLine b.pos r z
  obtain ⟨n, hn⟩ : ∃ n, digitsLeft z.count = n + 1 := ⟨_, rfl⟩
  obtain ⟨y, hZeros, hCode, hCount, hEnd⟩ := run_zeros (p := b.pos + 9) (r := q) n z (by omega)
  have hLast := statusLineStep_lastZero (p := b.pos + 9 + n) (r := q) (z := y) (by omega)
  have hLf : ∀ x v, statusLineStep x ⟨.spaceAfterStatus, q, v⟩ lf = .halt (.done q v) := fun _ _ => rfl
  have hRun : run statusLineStep b.pos ⟨.start, r, z⟩ (zerosLine (n + 1)) = .halted (b.pos + 9 + n + 1) (.done q
      { y with code := wrap32 (y.code * 10), count := 3, start := b.pos + 9 + n - 2 }) := by
    rw [hFront, List.replicate_succ', List.append_assoc, run_append_of_pending _ hZeros, List.length_replicate]
    exact (run_cons_next _ hLast).trans (run_cons_halt _ (hLf _ _))
  rw [hn] at hUnread
  rw [ngxHttpParseStatusLine, hState, StatusLineState.ofNat?_zero]
  simp only [hUnread, hRun]
  refine ⟨_, _, _, rfl, ?_, ?_⟩
  · have hTen := congrArg (fun x => wrap32 (x * 10)) hCode
    simp only [wrap32, Int.bmod_mul_bmod] at hTen
    rw [hn, wrap32, Int.pow_succ, ← Int.mul_assoc]
    exact hTen
  · simp only [hEnd, hn]
    rfl

/-- A shorter row is not. -/
theorem ngxHttpParseStatusLine_fewZeros {mem : Mem} {r : RequestT} {b : LtBuffer} {z : HttpStatus} {n : Nat}
    (hState : r.state = 0) (hUnread : b.unread mem = zerosLine n) (hFew : n < digitsLeft z.count) :
    (ngxHttpParseStatusLine mem r b z).1 = .lerror := by
  obtain ⟨q, hFront⟩ := run_zerosLine b.pos r z
  obtain ⟨y, hZeros, -, -, -⟩ := run_zeros (p := b.pos + 9) (r := q) n z hFew
  have hLf : ∀ x, statusLineStep x ⟨.status, q, y⟩ lf = .halt (.error q y) := fun _ => rfl
  have hRun : run statusLineStep b.pos ⟨.start, r, z⟩ (zerosLine n) = .halted (b.pos + 9 + n) (.error q y) := by
    rw [hFront, run_append_of_pending _ hZeros, List.length_replicate]
    exact run_cons_halt _ (hLf _)
  rw [ngxHttpParseStatusLine, hState, StatusLineState.ofNat?_zero]
  simp only [hUnread, hRun]

def StatusExit.Refuses : StatusExit → Prop
  | .done _ _ => False
  | .error _ _ => True

/-- Two scans of a status line, `i` bytes behind its start, with the codes still to be read.
At first they asked for `n` and `n'` digits. -/
structure Starved (n n' i : Nat) (σ τ : StatusLineScan) : Prop where
  state : σ.state = τ.state
  early : σ.state.toNat ≤ StatusLineState.toNat .status
  read : σ.state.toNat ≤ i
  left : n + 9 ≤ digitsLeft σ.status.count + max i 9
  left' : n' + 9 ≤ digitsLeft τ.status.count + max i 9

section Starving

variable {n n' i size : Nat} {r r' : RequestT} {z z' : HttpStatus} {s : StatusLineState}

/-- One byte in front of the code. -/
theorem Starved.next {q q' : RequestT} (t : StatusLineState) (h : Starved n n' i ⟨s, r, z⟩ ⟨s, r', z'⟩)
    (ht : t.toNat ≤ StatusLineState.toNat .status) (hNext : t.toNat ≤ s.toNat + 1) :
    Starved n n' (i + 1) ⟨t, q, z⟩ ⟨t, q', z'⟩ := by
  have hRead : s.toNat ≤ i := h.read
  have hLeft : n + 9 ≤ digitsLeft z.count + max i 9 := h.left
  have hLeft' : n' + 9 ≤ digitsLeft z'.count + max i 9 := h.left'
  exact ⟨rfl, ht, hNext.trans (Nat.succ_le_succ hRead), by simp only; omega, by simp only; omega⟩

theorem expectStatus_starved {c : UInt8} {t : StatusLineState} (ch : UInt8)
    (h : Starved n n' i ⟨s, r, z⟩ ⟨s, r', z'⟩) (ht : t.toNat ≤ StatusLineState.toNat .status)
    (hNext : t.toNat ≤ s.toNat + 1) :
    (expectStatus c t ⟨s, r, z⟩ ch).Rel (fun σ τ => i + 1 < size → Starved n n' (i + 1) σ τ)
      (fun e e' => e.Refuses ∧ e'.Refuses) (expectStatus c t ⟨s, r', z'⟩ ch) :=
  Verdict.rel_ite (fun _ _ => h.next t ht hNext) fun _ => ⟨trivial, trivial⟩

/-- One byte keeps the two scans together, unless it is the last one of the buffer.
Neither of them can have come to the last digit of its code by then. -/
theorem statusLineStep_starved {p : Nat} {σ τ : StatusLineScan} (ch : UInt8) (hSize : size < n + 10)
    (hSize' : size < n' + 10) (h : Starved n n' i σ τ) :
    (statusLineStep p σ ch).Rel (fun σ τ => i + 1 < size → Starved n n' (i + 1) σ τ)
      (fun e e' => e.Refuses ∧ e'.Refuses) (statusLineStep p τ ch) := by
  obtain ⟨s, r, z⟩ := σ
  obtain ⟨t, r', z'⟩ := τ
  obtain rfl : s = t := h.state
  have hEarly : s.toNat ≤ StatusLineState.toNat .status := h.early
  unfold statusLineStep
  cases s with
  | start => exact Verdict.rel_ite (fun _ _ => h.next .h (by decide) (by decide)) fun _ => ⟨trivial, trivial⟩
  | h | hT | hTT | hTTP => exact expectStatus_starved ch h (by decide) (by decide)
  | firstMajorDigit =>
      exact Verdict.rel_ite (fun _ => ⟨trivial, trivial⟩) fun _ _ => h.next .majorDigit (by decide) (by decide)
  | majorDigit =>
      exact Verdict.rel_ite (fun _ _ => h.next .firstMinorDigit (by decide) (by decide)) fun _ =>
        Verdict.rel_ite (fun _ => ⟨trivial, trivial⟩) fun _ _ => h.next .majorDigit (by decide) (by decide)
  | firstMinorDigit =>
      exact Verdict.rel_ite (fun _ => ⟨trivial, trivial⟩) fun _ _ => h.next .minorDigit (by decide) (by decide)
  | minorDigit =>
      exact Verdict.rel_ite (fun _ _ => h.next .status (by decide) (by decide)) fun _ =>
        Verdict.rel_ite (fun _ => ⟨trivial, trivial⟩) fun _ _ => h.next .minorDigit (by decide) (by decide)
  | status =>
      refine Verdict.rel_ite (fun _ _ => h.next .status (by decide) (by decide)) fun _ =>
        Verdict.rel_ite (fun _ => ⟨trivial, trivial⟩) fun _ => ?_
      have hRead : 9 ≤ i := h.read
      have hLeft : n + 9 ≤ digitsLeft z.count + max i 9 := h.left
      have hLeft' : n' + 9 ≤ digitsLeft z'.count + max i 9 := h.left'
      by_cases hEnd : i + 1 < size
      · -- neither code ends here, since the line is too short for the digits in front of this one
        have hMore : wrap32 (z.count + 1) ≠ 3 := by
          rw [Ne, wrap32_succ_eq_three]
          omega
        have hMore' : wrap32 (z'.count + 1) ≠ 3 := by
          rw [Ne, wrap32_succ_eq_three]
          omega
        have hDigit := digitsLeft_succ hMore
        have hDigit' := digitsLeft_succ hMore'
        simp only [if_neg hMore, if_neg hMore']
        exact fun _ => ⟨rfl, Nat.le_refl _, Nat.le_succ_of_le hRead, by simp only; omega, by simp only; omega⟩
      · simp only
        split_ifs <;> exact fun hNot => absurd hNot hEnd
  | spaceAfterStatus | statusText | almostDone => exact absurd hEarly (by decide)

/-- A line without room for the digits that the old count asks for is answered alike, and never accepted. -/
theorem ngxHttpParseStatusLine_starved (mem : Mem) (b : LtBuffer) (hState : r.state = 0) (hState' : r'.state = 0)
    (hRoom : (b.unread mem).length < digitsLeft z.count + 10)
    (hRoom' : (b.unread mem).length < digitsLeft z'.count + 10) :
    (ngxHttpParseStatusLine mem r b z).1 = (ngxHttpParseStatusLine mem r' b z').1 ∧
      (ngxHttpParseStatusLine mem r b z).1 ≠ .lok := by
  have hSim := run_sim (M := statusLineStep) (N := statusLineStep) (p := b.pos) (q := b.pos)
    (R := fun i σ τ => i < (b.unread mem).length → Starved (digitsLeft z.count) (digitsLeft z'.count) i σ τ)
    (S := fun _ e e' => e.Refuses ∧ e'.Refuses) (n := 0) (w := b.unread mem)
    (s := ⟨.start, r, z⟩) (t := ⟨.start, r', z'⟩)
    (fun i hi _ _ c _ h => statusLineStep_starved c hRoom hRoom' (h (by omega)))
    fun _ => ⟨rfl, Nat.zero_le _, Nat.zero_le _, by simp, by simp⟩
  rw [Nat.add_zero] at hSim
  simp only [ngxHttpParseStatusLine, hState, hState', StatusLineState.ofNat?_zero]
  revert hSim
  cases run statusLineStep b.pos ⟨.start, r, z⟩ (b.unread mem) with
  | pending σ =>
      cases run statusLineStep b.pos ⟨.start, r', z'⟩ (b.unread mem) with
      | pending τ => exact fun _ => ⟨rfl, by simp only; decide⟩
      | halted y e' => exact False.elim
  | halted x e =>
      cases run statusLineStep b.pos ⟨.start, r', z'⟩ (b.unread mem) with
      | pending τ => exact False.elim
      | halted y e' =>
          rintro ⟨i, -, -, -, hRefuses, hRefuses'⟩
          cases e with
          | done q y => exact hRefuses.elim
          | error q y =>
              cases e' with
              | done q' y' => exact hRefuses'.elim
              | error q' y' => exact ⟨rfl, by simp only; decide⟩

end Starving

/-- What the parser answers to a status line: its code, and the status of a line that it accepts. -/
def statusLineAnswer (mem : Mem) (r : RequestT) (b : LtBuffer) (z : HttpStatus) : Res × Option HttpStatus :=
  let answer := ngxHttpParseStatusLine mem r b z
  (answer.1, if answer.1 = .lok then some answer.2.2.2 else none)

def bufferAt (p : Nat) (w : List UInt8) : LtBuffer := ⟨p, p, p + w.length, p + w.length⟩

theorem bufferAt_unread (m : Mem) (p : Nat) (w : List UInt8) : (bufferAt p w).unread (place m p w) = w := by
  rw [LtBuffer.unread, bufferAt, slice_place]

theorem wrap32_eq_of_digitsLeft {c d : Int} (h : digitsLeft c = digitsLeft d) : wrap32 c = wrap32 d := by
  unfold digitsLeft at h
  unfold wrap32
  rw [Int.bmod_def, Int.bmod_def]
  split_ifs <;> omega

section Answers

variable {r r' : RequestT} {z z' : HttpStatus} {size : Nat}

theorem zerosLine_fits {n p : Nat} (h : n + 10 ≤ size) :
    (bufferAt p (zerosLine n)).last - (bufferAt p (zerosLine n)).pos ≤ size := by
  have hLength : (zerosLine n).length = n + 10 := by simp [zerosLine, ofChars]
  change p + (zerosLine n).length - p ≤ size
  omega

/-- A status that has counted more digits accepts a line that the other one refuses. -/
theorem digitsLeft_le_of_answers (hState : r.state = 0) (hState' : r'.state = 0)
    (hAll : ∀ mem b, b.last - b.pos ≤ size → statusLineAnswer mem r b z = statusLineAnswer mem r' b z')
    (hSize : digitsLeft z.count + 10 ≤ size) : digitsLeft z'.count ≤ digitsLeft z.count := by
  by_contra hFew
  have hUnread := bufferAt_unread (fun _ => 0) 1 (zerosLine (digitsLeft z.count))
  obtain ⟨q, b', y, hLok, -⟩ := ngxHttpParseStatusLine_zeros hState hUnread
  have hError := ngxHttpParseStatusLine_fewZeros hState' hUnread (Nat.lt_of_not_le hFew)
  have hSame := congrArg Prod.fst (hAll (place (fun _ => 0) 1 (zerosLine (digitsLeft z.count)))
    (bufferAt 1 (zerosLine (digitsLeft z.count))) (zerosLine_fits hSize))
  simp only [statusLineAnswer, hLok, hError] at hSame
  cases hSame

/-- Two old contents that lead to the same answer on every line that fits, where a whole line
fits for the first one. -/
theorem sameStatusResidue_of_answers (hState : r.state = 0) (hState' : r'.state = 0)
    (hAll : ∀ mem b, b.last - b.pos ≤ size → statusLineAnswer mem r b z = statusLineAnswer mem r' b z')
    (hSize : digitsLeft z.count + 10 ≤ size) : SameStatusResidue z z' := by
  have hLe := digitsLeft_le_of_answers hState hState' hAll hSize
  have hLeft : digitsLeft z.count = digitsLeft z'.count :=
    Nat.le_antisymm (digitsLeft_le_of_answers hState' hState (fun mem b hFits => (hAll mem b hFits).symm) (by omega))
      hLe
  have hWhole : ∀ p, wrap32 (z.code * 10 ^ digitsLeft z.count) = wrap32 (z'.code * 10 ^ digitsLeft z.count) ∧
      (if z.end_ = 0 then p + 9 + digitsLeft z.count else z.end_) =
        if z'.end_ = 0 then p + 9 + digitsLeft z.count else z'.end_ := by
    intro p
    have hUnread := bufferAt_unread (fun _ => 0) p (zerosLine (digitsLeft z.count))
    obtain ⟨q, b, y, hLok, hCode, hEnd⟩ := ngxHttpParseStatusLine_zeros hState hUnread
    have hUnread' := hUnread
    rw [hLeft] at hUnread'
    obtain ⟨q', b', y', hLok', hCode', hEnd'⟩ := ngxHttpParseStatusLine_zeros hState' hUnread'
    have hSame := hAll (place (fun _ => 0) p (zerosLine (digitsLeft z.count)))
      (bufferAt p (zerosLine (digitsLeft z.count))) (zerosLine_fits hSize)
    rw [← hLeft] at hLok' hCode' hEnd'
    simp only [statusLineAnswer, hLok, hLok', if_true, Prod.mk.injEq, Option.some.injEq, true_and] at hSame
    subst hSame
    exact ⟨hCode.symm.trans hCode', hEnd.symm.trans hEnd'⟩
  refine ⟨wrap32_eq_of_digitsLeft hLeft, (hWhole 0).1, ?_⟩
  have hHere := (hWhole 0).2
  have hThere := (hWhole 1).2
  split_ifs at hHere hThere <;> omega

/-- Two old contents lead to the same answer on every status line of a buffer exactly if
they have the same residue. -/
theorem statusLineAnswer_eq_iff (hState : r.state = 0) (hState' : r'.state = 0) :
    (∀ mem b, b.last - b.pos ≤ size → statusLineAnswer mem r b z = statusLineAnswer mem r' b z') ↔
      StatusAlike size z z' := by
  constructor
  · intro hAll
    by_cases hSize : digitsLeft z.count + 10 ≤ size
    · exact Or.inl (sameStatusResidue_of_answers hState hState' hAll hSize)
    · by_cases hSize' : digitsLeft z'.count + 10 ≤ size
      · exact Or.inl (sameStatusResidue_of_answers hState' hState (fun mem b hFits => (hAll mem b hFits).symm)
          hSize').symm
      · exact Or.inr ⟨not_le.mp hSize, not_le.mp hSize'⟩
  · rintro (h | ⟨hSize, hSize'⟩) mem b hFits
    · obtain ⟨hCode, -, hStatus⟩ := ngxHttpParseStatusLine_sameResidue mem b hState hState' h
      simp only [statusLineAnswer, ← hCode]
      split_ifs with hLok
      · rw [(hStatus hLok).1]
      · rfl
    · have hLength : (b.unread mem).length ≤ size := by rwa [LtBuffer.unread, length_slice]
      obtain ⟨hCode, hNot⟩ := ngxHttpParseStatusLine_starved mem b hState hState' (hLength.trans_lt hSize)
        (hLength.trans_lt hSize')
      simp only [statusLineAnswer, ← hCode, if_neg hNot]

end Answers

end Leactor
