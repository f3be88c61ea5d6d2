import Leactor.Parse.StatusLine

/-! What `ngx_http_parse_status_line` has stored when it accepts a status line. -/
namespace Leactor

open Ascii Scan Memory

section Spec

variable (mem : Mem) (r₀ : RequestT) (status₀ : HttpStatus) (p₀ : Nat)

/-- The invariant of the scan: where the line starts, and whether its last
byte is a carriage return. -/
structure StatusInv (x : Nat) (σ : StatusLineScan) : Prop where
  plain : ∀ y, p₀ ≤ y → y < x → mem y ≠ lf
  start : σ.state = .start → x = p₀
  behind : σ.state ≠ .start → p₀ < x ∧ σ.req.requestStart = p₀
  text : σ.state = .spaceAfterStatus ∨ σ.state = .statusText → mem (x - 1) ≠ cr
  almost : σ.state = .almostDone → mem (x - 1) = cr
  end_eq : σ.status.end_ = status₀.end_
  upstream : σ.req.upstream = r₀.upstream

/-- What an accepted status line has stored, with its line feed at `x`. -/
structure StatusRead (x : Nat) (r : RequestT) (status : HttpStatus) : Prop where
  lf_at : mem x = lf
  plain : ∀ y, p₀ ≤ y → y < x → mem y ≠ lf
  behind : p₀ < x
  start_eq : r.requestStart = p₀
  end_eq : status.end_ = if mem (x - 1) = cr then x - 1 else status₀.end_
  upstream : r.upstream = r₀.upstream

def StatusHalt (x : Nat) : StatusExit → Prop
  | .done r status => StatusRead mem r₀ status₀ p₀ x r status
  | .error _ _ => True

end Spec

variable {mem : Mem} {r₀ : RequestT} {status₀ : HttpStatus} {p₀ x : Nat} {σ : StatusLineScan}

/-- A byte that is no line terminator, in front of a state other than the last one. -/
theorem StatusInv.next {τ : StatusLineScan} (h : StatusInv mem r₀ status₀ p₀ x σ) (hLe : p₀ ≤ x)
    (hLf : mem x ≠ lf) (hState : τ.state ≠ .start ∧ τ.state ≠ .almostDone)
    (hText : τ.state = .spaceAfterStatus ∨ τ.state = .statusText → mem x ≠ cr)
    (hStart : τ.req.requestStart = p₀) (hEnd : τ.status.end_ = σ.status.end_)
    (hUpstream : τ.req.upstream = σ.req.upstream) : StatusInv mem r₀ status₀ p₀ (x + 1) τ where
  plain y hLow hHigh := by
    rcases Nat.lt_succ_iff_lt_or_eq.mp hHigh with hOld | rfl
    · exact h.plain y hLow hOld
    · exact hLf
  start hNot := absurd hNot hState.1
  behind _ := ⟨Nat.lt_succ_of_le hLe, hStart⟩
  text := hText
  almost hNot := absurd hNot hState.2
  end_eq := hEnd.trans h.end_eq
  upstream := hUpstream.trans h.upstream

/-- A carriage return. -/
theorem StatusInv.carriageReturn (h : StatusInv mem r₀ status₀ p₀ x σ) (hLe : p₀ ≤ x)
    (hState : σ.state ≠ .start) (hCr : mem x = cr) :
    StatusInv mem r₀ status₀ p₀ (x + 1) { σ with state := .almostDone } where
  plain y hLow hHigh := by
    rcases Nat.lt_succ_iff_lt_or_eq.mp hHigh with hOld | rfl
    · exact h.plain y hLow hOld
    · rw [hCr]
      decide
  start hNot := nomatch hNot
  behind _ := ⟨Nat.lt_succ_of_le hLe, (h.behind hState).2⟩
  text hNot := by simp at hNot
  almost _ := hCr
  end_eq := h.end_eq
  upstream := h.upstream

/-- A line feed without a carriage return. -/
theorem StatusInv.lineFeed (h : StatusInv mem r₀ status₀ p₀ x σ)
    (hState : σ.state = .spaceAfterStatus ∨ σ.state = .statusText) (hLf : mem x = lf) :
    StatusRead mem r₀ status₀ p₀ x σ.req σ.status := by
  have hBehind := h.behind (by rcases hState with h | h <;> rw [h] <;> decide)
  exact ⟨hLf, h.plain, hBehind.1, hBehind.2, by rw [if_neg (h.text hState)]; exact h.end_eq, h.upstream⟩

theorem digit_not_break : ∀ ch : UInt8, IsDigit ch → ch ≠ lf ∧ ch ≠ cr := by
  apply forall_byte
  decide +kernel

theorem major_not_lf : ∀ ch : UInt8, ¬ (ch < one ∨ nine < ch) → ch ≠ lf := by
  apply forall_byte
  decide +kernel

theorem expectStatus_inv {c : UInt8} {s : StatusLineState} (h : StatusInv mem r₀ status₀ p₀ x σ)
    (hLe : p₀ ≤ x) (hState : σ.state ≠ .start) (hc : c ≠ lf)
    (hs : s ≠ .start ∧ s ≠ .almostDone ∧ s ≠ .spaceAfterStatus ∧ s ≠ .statusText) :
    (expectStatus c s σ (mem x)).All (StatusInv mem r₀ status₀ p₀ (x + 1))
      (StatusHalt mem r₀ status₀ p₀ x) := by
  refine Verdict.all_ite (fun hByte => ?_) fun _ => trivial
  exact h.next hLe (by rwa [hByte]) ⟨hs.1, hs.2.1⟩ (by simp [hs.2.2]) (h.behind hState).2 rfl rfl

theorem statusInv_step (h : StatusInv mem r₀ status₀ p₀ x σ) (hLe : p₀ ≤ x) :
    (statusLineStep x σ (mem x)).All (StatusInv mem r₀ status₀ p₀ (x + 1))
      (StatusHalt mem r₀ status₀ p₀ x) := by
  obtain ⟨s, r, status⟩ := σ
  unfold statusLineStep
  cases s with
  | start =>
      refine Verdict.all_ite (fun hByte => ?_) fun _ => trivial
      refine h.next hLe (by rw [hByte]; decide) (by simp) (by simp) ?_ rfl rfl
      exact h.start rfl
  | h | hT | hTT | hTTP => exact expectStatus_inv h hLe (by simp) (by decide) (by simp)
  | firstMajorDigit =>
      refine Verdict.all_ite (fun _ => trivial) fun hByte => ?_
      exact h.next hLe (major_not_lf _ hByte) (by simp) (by simp) (h.behind (by simp)).2 rfl rfl
  | majorDigit =>
      refine Verdict.all_ite (fun hByte => ?_) fun _ => Verdict.all_ite (fun _ => trivial) fun hDigit => ?_
      · exact h.next hLe (by rw [hByte]; decide) (by simp) (by simp) (h.behind (by simp)).2 rfl rfl
      · exact h.next hLe (digit_not_break _ (not_not.mp hDigit)).1 (by simp) (by simp)
          (h.behind (by simp)).2 rfl rfl
  | firstMinorDigit =>
      refine Verdict.all_ite (fun _ => trivial) fun hDigit => ?_
      exact h.next hLe (digit_not_break _ (not_not.mp hDigit)).1 (by simp) (by simp)
        (h.behind (by simp)).2 rfl rfl
  | minorDigit =>
      refine Verdict.all_ite (fun hByte => ?_) fun _ => Verdict.all_ite (fun _ => trivial) fun hDigit => ?_
      · exact h.next hLe (by rw [hByte]; decide) (by simp) (by simp) (h.behind (by simp)).2 rfl rfl
      · exact h.next hLe (digit_not_break _ (not_not.mp hDigit)).1 (by simp) (by simp)
          (h.behind (by simp)).2 rfl rfl
  | status =>
      refine Verdict.all_ite (fun hByte => ?_) fun _ => Verdict.all_ite (fun _ => trivial) fun hDigit => ?_
      · exact h.next hLe (by rw [hByte]; decide) (by simp) (by simp) (h.behind (by simp)).2 rfl rfl
      · have hBreak := digit_not_break _ (not_not.mp hDigit)
        refine Verdict.all_ite (fun _ => ?_) fun _ => ?_
        · exact h.next hLe hBreak.1 (by simp) (fun _ => hBreak.2) (h.behind (by simp)).2 rfl rfl
        · exact h.next hLe hBreak.1 (by simp) (by simp) (h.behind (by simp)).2 rfl rfl
  | spaceAfterStatus =>
      refine Verdict.all_ite (fun hByte => ?_) fun _ => Verdict.all_ite (fun hCr => ?_) fun _ =>
        Verdict.all_ite (fun hLf => h.lineFeed (Or.inl rfl) hLf) fun _ => trivial
      · refine h.next hLe ?_ (by simp) (fun _ => ?_) (h.behind (by simp)).2 rfl rfl
        · rcases hByte with hByte | hByte <;> rw [hByte] <;> decide
        · rcases hByte with hByte | hByte <;> rw [hByte] <;> decide
      · exact h.carriageReturn hLe (by simp) hCr
  | statusText =>
      refine Verdict.all_ite (fun hCr => h.carriageReturn hLe (by simp) hCr) fun hCr =>
        Verdict.all_ite (fun hLf => h.lineFeed (Or.inr rfl) hLf) fun hLf => ?_
      exact h.next hLe hLf (by simp) (fun _ => hCr) (h.behind (by simp)).2 rfl rfl
  | almostDone =>
      refine Verdict.all_ite (fun hLf => ?_) fun _ => trivial
      have hBehind := h.behind (by simp)
      exact ⟨hLf, h.plain, hBehind.1, hBehind.2, by rw [if_pos (h.almost rfl)], h.upstream⟩

/-- An accepted status line reaches up to the first line feed. Its first byte is the `H`
of the protocol, as no line break is skipped. -/
theorem statusRead_of_lok {r r' : RequestT} {b b' : LtBuffer} {status status' : HttpStatus}
    (hState : r.state = 0) (h : ngxHttpParseStatusLine mem r b status = (.lok, r', b', status')) :
    ∃ x q z, StatusRead mem r status b.pos x q z ∧ b.pos ≤ x ∧ x < b.last ∧
      r' = { q with state := 0 } ∧ b' = { b with pos := x + 1 } ∧
      status'.end_ = (if z.end_ = 0 then x else z.end_) ∧ mem b.pos = upperH := by
  rw [ngxHttpParseStatusLine, hState, StatusLineState.ofNat?_zero] at h
  simp only at h
  by_cases hPos : b.pos ≤ b.last
  · have hAll := run_slice_all (M := statusLineStep) (m := mem) (q := b.last) (s := ⟨.start, r, status⟩)
      (I := StatusInv mem r status b.pos) (Q := StatusHalt mem r status b.pos)
      (fun x σ hLow _ _ hInv => statusInv_step hInv hLow) hPos
      ⟨fun y hLow hHigh => absurd hLow (by omega), fun _ => rfl, fun hNot => absurd rfl hNot, by simp,
        by simp, rfl, rfl⟩
    cases hRun : run statusLineStep b.pos ⟨.start, r, status⟩ (slice mem b.pos b.last) with
    | pending σ =>
        rw [LtBuffer.unread, hRun] at h
        exact nomatch congrArg Prod.fst h
    | halted x e =>
        rw [hRun] at hAll
        rw [LtBuffer.unread, hRun] at h
        cases e with
        | error q z => exact nomatch congrArg Prod.fst h
        | done q z =>
            simp only [Prod.mk.injEq, true_and] at h
            refine ⟨x, q, z, hAll.2.2, hAll.1, hAll.2.1, h.1.symm, h.2.1.symm, by rw [← h.2.2], ?_⟩
            by_contra hFirst
            have hHalt : statusLineStep b.pos ⟨.start, r, status⟩ (mem b.pos) = .halt (.error r status) :=
              if_neg hFirst
            rw [slice_cons (Nat.lt_of_le_of_lt hAll.1 hAll.2.1), run_cons_halt _ hHalt] at hRun
            exact nomatch (Outcome.halted.inj hRun).2
  · rw [LtBuffer.unread, slice_of_le (by omega)] at h
    exact nomatch congrArg Prod.fst h

/-- Two scans of one status line, `i` bytes behind its start at `p` and at `q`.
Up to the status each state is reached by one byte more than the state before it. -/
structure StatusSim (p q i : Nat) (σ τ : StatusLineScan) : Prop where
  state : σ.state = τ.state
  far : min σ.state.toNat (StatusLineState.toNat .status) ≤ i
  code : σ.status.code = τ.status.code
  count : σ.status.count = τ.status.count
  major : StatusLineState.toNat .majorDigit ≤ σ.state.toNat → σ.req.httpMajor = τ.req.httpMajor
  minor : StatusLineState.toNat .minorDigit ≤ σ.state.toNat → σ.req.httpMinor = τ.req.httpMinor
  start : StatusLineState.toNat .spaceAfterStatus ≤ σ.state.toNat →
    ∃ j, σ.status.start = p + j ∧ τ.status.start = q + j

/-- What two scans of one status line leave behind it. -/
structure SameStatus (p q : Nat) (r r' : RequestT) (status status' : HttpStatus) : Prop where
  code : status.code = status'.code
  major : r.httpMajor = r'.httpMajor
  minor : r.httpMinor = r'.httpMinor
  start : ∃ j, status.start = p + j ∧ status'.start = q + j

def SameExit (p q : Nat) : StatusExit → StatusExit → Prop
  | .done r status, .done r' status' => SameStatus p q r r' status status'
  | .error _ _, .error _ _ => True
  | _, _ => False

theorem StatusSim.done {p q i : Nat} {σ τ : StatusLineScan} (h : StatusSim p q i σ τ)
    (hState : StatusLineState.toNat .spaceAfterStatus ≤ σ.state.toNat) :
    SameStatus p q σ.req τ.req σ.status τ.status :=
  ⟨h.code, h.major (Nat.le_trans (by decide) hState), h.minor (Nat.le_trans (by decide) hState),
    h.start hState⟩

/-- Two scans in the state `s`. -/
theorem StatusSim.of_state {p q i : Nat} {r r' : RequestT} {status status' : HttpStatus}
    (s : StatusLineState) (hFar : min s.toNat (StatusLineState.toNat .status) ≤ i) (hCode : status.code = status'.code)
    (hCount : status.count = status'.count)
    (hMajor : StatusLineState.toNat .majorDigit ≤ s.toNat → r.httpMajor = r'.httpMajor)
    (hMinor : StatusLineState.toNat .minorDigit ≤ s.toNat → r.httpMinor = r'.httpMinor)
    (hStart : StatusLineState.toNat .spaceAfterStatus ≤ s.toNat →
      ∃ j, status.start = p + j ∧ status'.start = q + j) :
    StatusSim p q i ⟨s, r, status⟩ ⟨s, r', status'⟩ :=
  ⟨rfl, hFar, hCode, hCount, hMajor, hMinor, hStart⟩

/-- A byte of the protocol's name. -/
theorem expectStatus_sim {p q i : Nat} {r r' : RequestT} {status status' : HttpStatus} {c : UInt8}
    {s t : StatusLineState} (ch : UInt8) (h : StatusSim p q i ⟨s, r, status⟩ ⟨s, r', status'⟩)
    (hFar : min t.toNat (StatusLineState.toNat .status) ≤ min s.toNat (StatusLineState.toNat .status) + 1)
    (hEarly : t.toNat < StatusLineState.toNat .majorDigit) :
    (expectStatus c t ⟨s, r, status⟩ ch).Rel (StatusSim p q (i + 1)) (SameExit p q)
      (expectStatus c t ⟨s, r', status'⟩ ch) := by
  refine Verdict.rel_ite (fun _ => ?_) fun _ => trivial
  refine .of_state t (hFar.trans (Nat.succ_le_succ h.far)) h.code h.count (fun hLe => ?_) (fun hLe => ?_)
    fun hLe => ?_
  · exact absurd hEarly (Nat.not_lt.mpr hLe)
  · exact absurd hEarly (Nat.not_lt.mpr (Nat.le_trans (by decide) hLe))
  · exact absurd hEarly (Nat.not_lt.mpr (Nat.le_trans (by decide) hLe))

theorem statusSim_step {p q i : Nat} {σ τ : StatusLineScan} (ch : UInt8) (h : StatusSim p q i σ τ) :
    (statusLineStep (p + i) σ ch).Rel (StatusSim p q (i + 1)) (SameExit p q)
      (statusLineStep (q + i) τ ch) := by
  obtain ⟨s, r, status⟩ := σ
  obtain ⟨t, r', status'⟩ := τ
  obtain rfl : s = t := h.state
  have hCode : status.code = status'.code := h.code
  have hCount : status.count = status'.count := h.count
  have hFar : min s.toNat (StatusLineState.toNat .status) ≤ i := h.far
  have hStay : min s.toNat (StatusLineState.toNat .status) ≤ i + 1 := Nat.le_succ_of_le hFar
  have hMajor : StatusLineState.toNat .majorDigit ≤ s.toNat → r.httpMajor = r'.httpMajor := h.major
  have hMinor : StatusLineState.toNat .minorDigit ≤ s.toNat → r.httpMinor = r'.httpMinor := h.minor
  have hDone : StatusLineState.toNat .spaceAfterStatus ≤ s.toNat → SameStatus p q r r' status status' :=
    h.done
  unfold statusLineStep
  cases s with
  | start =>
      refine Verdict.rel_ite (fun _ => ?_) fun _ => trivial
      exact .of_state .h (Nat.succ_le_succ hFar) hCode hCount (fun hLe => absurd hLe (by decide))
        (fun hLe => absurd hLe (by decide)) fun hLe => absurd hLe (by decide)
  | h => exact expectStatus_sim ch h (by decide) (by decide)
  | hT => exact expectStatus_sim ch h (by decide) (by decide)
  | hTT => exact expectStatus_sim ch h (by decide) (by decide)
  | hTTP => exact expectStatus_sim ch h (by decide) (by decide)
  | firstMajorDigit =>
      refine Verdict.rel_ite (fun _ => trivial) fun _ => ?_
      exact .of_state .majorDigit (Nat.succ_le_succ hFar) hCode hCount (fun _ => rfl)
        (fun hLe => absurd hLe (by decide)) fun hLe => absurd hLe (by decide)
  | majorDigit =>
      have hSame := hMajor (by decide)
      refine Verdict.rel_ite (fun _ => ?_) fun _ => Verdict.rel_ite (fun _ => trivial) fun _ => ?_
      · exact .of_state .firstMinorDigit (Nat.succ_le_succ hFar) hCode hCount (fun _ => hSame)
          (fun hLe => absurd hLe (by decide)) fun hLe => absurd hLe (by decide)
      · exact .of_state .majorDigit hStay hCode hCount (fun _ => by simp only [hSame])
          (fun hLe => absurd hLe (by decide)) fun hLe => absurd hLe (by decide)
  | firstMinorDigit =>
      refine Verdict.rel_ite (fun _ => trivial) fun _ => ?_
      exact .of_state .minorDigit (Nat.succ_le_succ hFar) hCode hCount (fun _ => hMajor (by decide))
        (fun _ => rfl) fun hLe => absurd hLe (by decide)
  | minorDigit =>
      have hSame := hMinor (by decide)
      refine Verdict.rel_ite (fun _ => ?_) fun _ => Verdict.rel_ite (fun _ => trivial) fun _ => ?_
      · exact .of_state .status (Nat.succ_le_succ hFar) hCode hCount (fun _ => hMajor (by decide))
          (fun _ => hSame) fun hLe => absurd hLe (by decide)
      · exact .of_state .minorDigit hStay hCode hCount (fun _ => hMajor (by decide))
          (fun _ => by simp only [hSame]) fun hLe => absurd hLe (by decide)
  | status =>
      refine Verdict.rel_ite (fun _ => ?_) fun _ => Verdict.rel_ite (fun _ => trivial) fun _ => ?_
      · exact .of_state .status hStay hCode hCount h.major h.minor h.start
      · simp only [hCode, hCount]
        refine Verdict.rel_ite (fun _ => ?_) fun _ => ?_
        · -- nine bytes at least stand in front of the last digit
          have hBehind : 9 ≤ i := hFar
          exact .of_state .spaceAfterStatus hStay rfl rfl (fun _ => hMajor (by decide))
            (fun _ => hMinor (by decide)) fun _ => ⟨i - 2, by simp only; omega, by simp only; omega⟩
        · exact .of_state .status hStay rfl rfl (fun _ => hMajor (by decide))
            (fun _ => hMinor (by decide)) fun hLe => absurd hLe (by decide)
  | spaceAfterStatus =>
      have hDone := hDone (by decide)
      refine Verdict.rel_ite (fun _ => ?_) fun _ => Verdict.rel_ite (fun _ => ?_) fun _ =>
        Verdict.rel_ite (fun _ => hDone) fun _ => trivial
      · exact .of_state .statusText hStay hCode hCount (fun _ => hDone.major)
          (fun _ => hDone.minor) fun _ => hDone.start
      · exact .of_state .almostDone hStay hCode hCount (fun _ => hDone.major)
          (fun _ => hDone.minor) fun _ => hDone.start
  | statusText =>
      have hDone := hDone (by decide)
      refine Verdict.rel_ite (fun _ => ?_) fun _ => Verdict.rel_ite (fun _ => hDone) fun _ => ?_
      · exact .of_state .almostDone hStay hCode hCount (fun _ => hDone.major)
          (fun _ => hDone.minor) fun _ => hDone.start
      · exact .of_state .statusText hStay hCode hCount (fun _ => hDone.major) (fun _ => hDone.minor)
          fun _ => hDone.start
  | almostDone =>
      have hDone := hDone (by decide)
      exact Verdict.rel_ite (fun _ => ⟨hDone.code, hDone.major, hDone.minor, hDone.start⟩) fun _ => trivial

/-- The line feed at which an accepted status line ends is the first one. -/
theorem statusRead_eq {r r' : RequestT} {status status' : HttpStatus} {line rest : List UInt8} {q : Nat}
    (hText : slice mem p₀ q = line ++ lf :: rest) (hPlain : lf ∉ line) (hLow : p₀ ≤ x)
    (hRead : StatusRead mem r status p₀ x r' status') : x = p₀ + line.length := by
  obtain ⟨hLine, hTail⟩ := slice_eq_append hText
  rcases Nat.lt_trichotomy x (p₀ + line.length) with hLt | hEq | hGt
  · refine absurd ?_ hPlain
    rw [← hLine, mem_slice]
    exact ⟨x, hLow, hLt, hRead.lf_at⟩
  · exact hEq
  · exact absurd (slice_eq_cons hTail).2.1 (hRead.plain _ (Nat.le_add_right _ _) hGt)

/-- A status line that is accepted is accepted at any place, with the same status. -/
theorem ngxHttpParseStatusLine_moved {mem mem' : Mem} {r₀ r₁ r : RequestT} {b b' c : LtBuffer}
    {status₀ status₁ status : HttpStatus} {line rest rest' : List UInt8} (hState₀ : r₀.state = 0)
    (hState₁ : r₁.state = 0) (hCode : status₀.code = status₁.code) (hCount : status₀.count = status₁.count)
    (hText : b.unread mem = line ++ lf :: rest) (hPlain : lf ∉ line)
    (hText' : b'.unread mem' = line ++ lf :: rest')
    (h : ngxHttpParseStatusLine mem r₀ b status₀ = (.lok, r, c, status)) :
    ∃ r' status', ngxHttpParseStatusLine mem' r₁ b' status₁ =
        (.lok, r', { b' with pos := b'.pos + line.length + 1 }, status') ∧
      SameStatus b.pos b'.pos r r' status status' ∧ status.httpVersion = status'.httpVersion := by
  obtain ⟨x, q, z, hRead, hLow, -, -, hPos, -, -⟩ := statusRead_of_lok hState₀ h
  obtain rfl := statusRead_eq hText hPlain hLow hRead
  have hSim := run_sim (M := statusLineStep) (N := statusLineStep) (p := b.pos) (q := b'.pos)
    (R := StatusSim b.pos b'.pos) (S := fun _ => SameExit b.pos b'.pos) (n := 0) (w := line ++ [lf])
    (s := ⟨.start, r₀, status₀⟩) (t := ⟨.start, r₁, status₁⟩)
    (fun i _ σ τ ch _ h => statusSim_step ch h)
    (.of_state .start (Nat.le_refl _) hCode hCount (fun hLe => absurd hLe (by decide))
      (fun hLe => absurd hLe (by decide)) fun hLe => absurd hLe (by decide))
  rw [ngxHttpParseStatusLine, hState₀, StatusLineState.ofNat?_zero, hText, List.append_cons] at h
  rw [ngxHttpParseStatusLine, hState₁, StatusLineState.ofNat?_zero, hText', List.append_cons]
  simp only [Nat.add_zero] at h hSim ⊢
  cases hRun : run statusLineStep b.pos ⟨.start, r₀, status₀⟩ (line ++ [lf]) with
  | pending σ =>
      -- a scan that goes on behind the line would end there
      rw [run_append_of_pending rest hRun] at h
      cases hRest : run statusLineStep (b.pos + (line ++ [lf]).length) σ rest with
      | pending τ =>
          rw [hRest] at h
          exact nomatch congrArg Prod.fst h
      | halted y e =>
          obtain ⟨xs, -, -, -, -, rfl, -, -⟩ := exists_prefix_of_halted hRest
          rw [hRest] at h
          cases e with
          | error q z => exact nomatch congrArg Prod.fst h
          | done q z =>
              simp only [Prod.mk.injEq, List.length_append, List.length_singleton, hPos,
                LtBuffer.mk.injEq] at h
              omega
  | halted y e =>
      rw [run_append_of_halted rest hRun] at h
      cases e with
      | error q z => exact nomatch congrArg Prod.fst h
      | done q z =>
          simp only [Prod.mk.injEq, true_and] at h
          obtain ⟨rfl, hBuf, rfl⟩ := h
          rw [hRun] at hSim
          cases hRun' : run statusLineStep b'.pos ⟨.start, r₁, status₁⟩ (line ++ [lf]) with
          | pending τ =>
              rw [hRun'] at hSim
              exact hSim.elim
          | halted y' e' =>
              rw [hRun'] at hSim
              obtain ⟨i, -, rfl, rfl, hExit⟩ := hSim
              rw [run_append_of_halted rest' hRun']
              cases e' with
              | error q' z' => exact hExit.elim
              | done q' z' =>
                  obtain ⟨hSameCode, hMajor, hMinor, hStart⟩ := hExit
                  obtain rfl : i = line.length := by
                    rw [hPos, LtBuffer.mk.injEq] at hBuf
                    omega
                  exact ⟨_, _, rfl, ⟨hSameCode, hMajor, hMinor, hStart⟩, by simp only [hMajor, hMinor]⟩

end Leactor
