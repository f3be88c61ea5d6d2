import Leactor.Parse.RequestLine

/-! What `ngx_http_parse_request_line` depends on. It neither reads nor writes
the fields that are filled in behind it, and it reads no byte in front of the
buffer's position. -/
namespace Leactor

open Ascii Scan Memory

def RequestT.lineView (r : RequestT) : RequestT :=
  { r with
    state := 0, methodName := {}, httpProtocol := { data := r.httpProtocol.data }
    httpProtocolEnd := 0, uri := {}, unparsedUri := {}, validUnparsedUri := 0, httpVersion := 0
    requestLine := {}, requestLength := 0, headerStart := 0, headerEnd := 0, headerNameStart := 0
    headerNameEnd := 0, elementHead := none, elementTail := none, headerHash := 0
    headerLength := 0, lowcaseIndex := 0, invalidHeader := 0, lowcaseHeader := fun _ => 0
    status := {} }

def LineExit.view : LineExit → LineExit
  | .done r => .done r.lineView
  | .fail res r => .fail res r.lineView

def lineVerdictView : Verdict RequestLineScan LineExit → Verdict RequestLineScan LineExit
  | .next (s, r) => .next (s, r.lineView)
  | .halt e => .halt e.view

section View

variable {below : Int → UInt32} {p : Nat} (r : RequestT) (ch : UInt8)

theorem hostEndStep_view : lineVerdictView (hostEndStep p r ch) = hostEndStep p r.lineView ch := by
  simp only [hostEndStep, apply_ite lineVerdictView]
  rfl

theorem hostStep_view : lineVerdictView (hostStep p r ch) = hostStep p r.lineView ch := by
  simp only [hostStep, apply_ite lineVerdictView, hostEndStep_view]
  rfl

theorem checkUriStep_view :
    lineVerdictView (checkUriStep below p r ch) = checkUriStep below p r.lineView ch := by
  simp only [checkUriStep, apply_ite lineVerdictView]
  rfl

theorem uriStep_view : lineVerdictView (uriStep below p r ch) = uriStep below p r.lineView ch := by
  simp only [uriStep, apply_ite lineVerdictView]
  rfl

theorem afterSlashInUriStep_view :
    lineVerdictView (afterSlashInUriStep below p r ch) = afterSlashInUriStep below p r.lineView ch := by
  simp only [afterSlashInUriStep, apply_ite lineVerdictView]
  rfl

theorem expect_view (c : UInt8) (s : RequestLineState) :
    lineVerdictView (expect c s r ch) = expect c s r.lineView ch := by
  simp only [expect, apply_ite lineVerdictView]
  rfl

/-- The step of the view is the view of the step. -/
theorem requestLineStep_view (mem : Mem) (s : RequestLineState) :
    lineVerdictView (requestLineStep mem p (s, r) ch) = requestLineStep mem p (s, r.lineView) ch := by
  unfold requestLineStep requestLineStepWith
  cases s with
  | hostStart =>
      simp only [apply_ite lineVerdictView, hostStep_view]
      rfl
  | host => exact hostStep_view r ch
  | hostEnd => exact hostEndStep_view r ch
  | afterSlashInUri => exact afterSlashInUriStep_view r ch
  | checkUri => exact checkUriStep_view r ch
  | uri => exact uriStep_view r ch
  | schemaSlash | schemaSlashSlash | httpH | httpHT | httpHTT | httpHTTP => exact expect_view r ch _ _
  | checkUriHttp09 =>
      simp only [apply_ite lineVerdictView, checkUriStep_view]
      rfl
  | http09 =>
      simp only [apply_ite lineVerdictView, uriStep_view]
      rfl
  | start | method | spacesBeforeUri | schema | hostIpLiteral | port | hostHttp09
  | firstMajorDigit | majorDigit | firstMinorDigit | minorDigit | spacesAfterDigit | almostDone =>
      simp only [apply_ite lineVerdictView]
      rfl

end View

/-- The method lookup reads only the method. -/
theorem methodNumber_congr {mem mem' : Mem} {m p : Nat} (h : ∀ x, m ≤ x → mem x = mem' x) :
    methodNumber mem m p = methodNumber mem' m p := by
  have hCmp : ∀ cs, ngxStrCmp mem m cs = ngxStrCmp mem' m cs := by
    intro cs
    rw [ngxStrCmp, ngxStrCmp, slice_congr fun x hx _ => h x hx]
  have hOcmp : ∀ c₀ c₂ c₃, ngxStr3Ocmp mem m c₀ c₂ c₃ = ngxStr3Ocmp mem' m c₀ c₂ c₃ := by
    intro c₀ c₂ c₃
    rw [ngxStr3Ocmp, ngxStr3Ocmp, h m (by omega), h (m + 2) (by omega), h (m + 3) (by omega)]
  simp only [methodNumber, hCmp, hOcmp, h (m + 1) (by omega)]

/-- The method lookup depends on the method's bytes, and on their number. -/
theorem methodNumber_moved {mem mem' : Mem} {m m' n : Nat}
    (h : slice mem m (m + n) = slice mem' m' (m' + n)) :
    methodNumber mem m (m + n) = methodNumber mem' m' (m' + n) := by
  have hCmp : ∀ cs : List Char, cs.length ≤ n → ngxStrCmp mem m cs = ngxStrCmp mem' m' cs := by
    intro cs hLe
    rw [ngxStrCmp, ngxStrCmp, slice_take hLe, slice_take hLe, h]
  have hOcmp : 4 ≤ n → ∀ c₀ c₂ c₃, ngxStr3Ocmp mem m c₀ c₂ c₃ = ngxStr3Ocmp mem' m' c₀ c₂ c₃ := by
    intro hLe c₀ c₂ c₃
    have hFirst : mem m = mem' m' := eq_of_slice_eq (i := 0) h (by omega)
    rw [ngxStr3Ocmp, ngxStr3Ocmp, hFirst, eq_of_slice_eq (i := 2) h (by omega),
      eq_of_slice_eq (i := 3) h (by omega)]
  have hLength : ((m + n : Nat) : Int) - (m : Int) = n ∧ ((m' + n : Nat) : Int) - (m' : Int) = n := by omega
  simp only [methodNumber, hLength]
  refine ite_congr rfl (fun hn => ?_) fun _ => ite_congr rfl (fun hn => ?_) fun _ =>
    ite_congr rfl (fun hn => ?_) fun _ => ite_congr rfl (fun hn => ?_) fun _ =>
    ite_congr rfl (fun hn => ?_) fun _ => ite_congr rfl (fun hn => ?_) fun _ =>
    ite_congr rfl (fun hn => ?_) fun _ => rfl
  · simp only [hCmp ['G', 'E', 'T'] (by simp; omega), hCmp ['P', 'U', 'T'] (by simp; omega)]
  · simp only [hCmp ['H', 'E', 'A', 'D'] (by simp; omega), hOcmp (by omega),
      eq_of_slice_eq (i := 1) h (by omega)]
  · simp only [hCmp ['M', 'K', 'C', 'O', 'L'] (by simp; omega), hCmp ['P', 'A', 'T', 'C', 'H'] (by simp; omega),
      hCmp ['T', 'R', 'A', 'C', 'E'] (by simp; omega)]
  · simp only [hCmp ['D', 'E', 'L', 'E', 'T', 'E'] (by simp; omega),
      hCmp ['U', 'N', 'L', 'O', 'C', 'K'] (by simp; omega)]
  · rw [hCmp _ (by simp; omega)]
  · rw [hCmp _ (by simp; omega)]
  · rw [hCmp _ (by simp; omega)]

/-- A method under way began at or behind `a`. -/
def MethodFrom (a : Nat) (σ : RequestLineScan) : Prop := σ.1 = .method → a ≤ σ.2.requestStart

theorem requestLineStep_methodFrom (mem : Mem) {a p : Nat} {σ : RequestLineScan} (ch : UInt8)
    (hLe : a ≤ p) (h : MethodFrom a σ) :
    (requestLineStep mem p σ ch).All (MethodFrom a) fun _ => True := by
  obtain ⟨s, r⟩ := σ
  unfold requestLineStep requestLineStepWith
  cases s with
  | start =>
      repeat' refine Verdict.all_ite (fun _ => ?_) fun _ => ?_
      · exact fun hMethod => by cases hMethod
      · exact trivial
      · exact fun _ => hLe
  | method =>
      repeat' refine Verdict.all_ite (fun _ => ?_) fun _ => ?_
      · exact fun hMethod => by cases hMethod
      · exact trivial
      · exact fun _ => h rfl
  | _ =>
      simp only [hostStep, hostEndStep, checkUriStep, uriStep, afterSlashInUriStep, expect]
      repeat' refine Verdict.all_ite (fun _ => ?_) fun _ => ?_
      all_goals first | exact fun hMethod => by cases hMethod | exact trivial

theorem requestLineStep_mem {mem mem' : Mem} {a p : Nat} {σ : RequestLineScan} (ch : UInt8)
    (h : MethodFrom a σ) (hMem : ∀ x, a ≤ x → mem x = mem' x) :
    requestLineStep mem p σ ch = requestLineStep mem' p σ ch := by
  obtain ⟨s, r⟩ := σ
  cases s with
  | method =>
      have hNumber := methodNumber_congr (p := p) fun x (hx : r.requestStart ≤ x) =>
        hMem x ((h rfl).trans hx)
      simp only [requestLineStep, requestLineStepWith, hNumber]
  | _ => rfl

/-- Two scans at the same place in memories and requests that look the same to them. -/
def SameView (a : Nat) (σ τ : RequestLineScan) : Prop :=
  σ.1 = τ.1 ∧ σ.2.lineView = τ.2.lineView ∧ MethodFrom a τ

theorem requestLineStep_sameView {mem mem' : Mem} {a p : Nat} {σ τ : RequestLineScan} (ch : UInt8)
    (hLe : a ≤ p) (hMem : ∀ x, a ≤ x → mem x = mem' x) (h : SameView a σ τ) :
    (requestLineStep mem p σ ch).Rel (SameView a) (fun e e' => e.view = e'.view)
      (requestLineStep mem' p τ ch) := by
  obtain ⟨s, r⟩ := σ
  obtain ⟨t, r'⟩ := τ
  obtain ⟨rfl, hView, hMethod⟩ := h
  simp only at hView
  have hEq : lineVerdictView (requestLineStep mem p (s, r) ch) =
      lineVerdictView (requestLineStep mem' p (s, r') ch) := by
    rw [requestLineStep_view, hView, ← requestLineStep_view, requestLineStep_mem ch hMethod hMem]
  have hKeep := requestLineStep_methodFrom mem' ch hLe hMethod
  revert hEq hKeep
  cases requestLineStep mem p (s, r) ch with
  | next σ' =>
      cases requestLineStep mem' p (s, r') ch with
      | next τ' =>
          intro hEq hKeep
          simp only [lineVerdictView, Verdict.next.injEq, Prod.mk.injEq] at hEq
          exact ⟨hEq.1, hEq.2, hKeep⟩
      | halt e' => exact fun hEq _ => nomatch hEq
  | halt e =>
      cases requestLineStep mem' p (s, r') ch with
      | next τ' => exact fun hEq _ => nomatch hEq
      | halt e' =>
          intro hEq _
          exact (Verdict.halt.injEq _ _).mp hEq

theorem requestLineDone_snd (x : Nat) (q : RequestT) :
    (requestLineDone x q).2 = { q with
      requestEnd := if q.requestEnd = 0 then x else q.requestEnd
      httpVersion := wrap32 (q.httpMajor * 1000 + q.httpMinor)
      state := 0 } := by
  rw [requestLineDone, apply_ite Prod.snd, ite_self]

theorem requestLineDone_fst (x : Nat) (q : RequestT) :
    (requestLineDone x q).1 =
      if wrap32 (q.httpMajor * 1000 + q.httpMinor) = 9 ∧ q.method ≠ ngxHttpGet then
        .ngxHttpParseInvalid09Method
      else .lok := by
  rw [requestLineDone, apply_ite Prod.fst]

theorem requestLineDone_view (p : Nat) (r : RequestT) :
    (requestLineDone p r).1 = (requestLineDone p r.lineView).1 ∧
      (requestLineDone p r).2.lineView = (requestLineDone p r.lineView).2.lineView := by
  unfold requestLineDone
  simp only
  constructor
  · rw [apply_ite Prod.fst, apply_ite Prod.fst]
    rfl
  · rw [apply_ite Prod.snd, apply_ite Prod.snd]
    simp only [ite_self]
    rfl

/-- The result of the parser depends on the view of the request only, and on the bytes
from the position on. -/
theorem ngxHttpParseRequestLine_view {mem mem' : Mem} {r r' : RequestT} {b : LtBuffer}
    (hState : r.state = 0) (hState' : r'.state = 0) (hView : r.lineView = r'.lineView)
    (hMem : ∀ x, b.pos ≤ x → mem x = mem' x) :
    (ngxHttpParseRequestLine mem r b).1 = (ngxHttpParseRequestLine mem' r' b).1 ∧
      (ngxHttpParseRequestLine mem r b).2.1.lineView =
        (ngxHttpParseRequestLine mem' r' b).2.1.lineView ∧
      (ngxHttpParseRequestLine mem r b).2.2 = (ngxHttpParseRequestLine mem' r' b).2.2 := by
  have hUnread : b.unread mem = b.unread mem' := slice_congr fun x hx _ => hMem x hx
  have hSim := run_sim (M := requestLineStep mem) (N := requestLineStep mem') (p := b.pos) (q := b.pos)
    (R := fun _ => SameView b.pos) (S := fun _ e e' => e.view = e'.view) (n := 0) (w := b.unread mem)
    (s := (.start, r)) (t := (.start, r'))
    (fun i _ σ τ c _ h => requestLineStep_sameView c (Nat.le_add_right _ i) hMem h)
    ⟨rfl, hView, fun h => nomatch h⟩
  simp only [ngxHttpParseRequestLine, hState, hState', RequestLineState.ofNat?_zero, ← hUnread]
  rw [Nat.add_zero] at hSim
  revert hSim
  cases run (requestLineStep mem) b.pos (.start, r) (b.unread mem) with
  | pending σ =>
      cases run (requestLineStep mem') b.pos (.start, r') (b.unread mem) with
      | pending τ => exact fun h => ⟨rfl, h.2.1, rfl⟩
      | halted y e' => exact False.elim
  | halted x e =>
      cases run (requestLineStep mem') b.pos (.start, r') (b.unread mem) with
      | pending τ => exact False.elim
      | halted y e' =>
          rintro ⟨i, -, rfl, rfl, hExit⟩
          cases e with
          | done q =>
              cases e' with
              | done q' =>
                  have hq : q.lineView = q'.lineView := (LineExit.done.injEq _ _).mp hExit
                  obtain ⟨hRes, hReq⟩ := requestLineDone_view (b.pos + i) q
                  obtain ⟨hRes', hReq'⟩ := requestLineDone_view (b.pos + i) q'
                  rw [hq] at hRes hReq
                  exact ⟨hRes.trans hRes'.symm, hReq.trans hReq'.symm, rfl⟩
              | fail _ _ => exact nomatch hExit
          | fail res q =>
              cases e' with
              | done q' => exact nomatch hExit
              | fail res' q' =>
                  simp only [LineExit.view, LineExit.fail.injEq] at hExit
                  exact ⟨hExit.1, hExit.2, rfl⟩

/-- The loop fails with one of two codes. -/
theorem requestLineStep_fail (mem : Mem) (p : Nat) (σ : RequestLineScan) (ch : UInt8) :
    (requestLineStep mem p σ ch).All (fun _ => True) fun e =>
      ∀ res r, e = .fail res r → res = .ngxHttpParseInvalidMethod ∨ res = .ngxHttpParseInvalidRequest := by
  obtain ⟨s, r⟩ := σ
  unfold requestLineStep requestLineStepWith
  cases s
  all_goals
    simp only [hostStep, hostEndStep, checkUriStep, uriStep, afterSlashInUriStep, expect]
    repeat' refine Verdict.all_ite (fun _ => ?_) fun _ => ?_
    all_goals first
      | exact trivial
      | exact fun _ _ h => Or.inl (LineExit.fail.inj h).1.symm
      | exact fun _ _ h => Or.inr (LineExit.fail.inj h).1.symm
      | exact fun _ _ h => by cases h

/-- The codes that the label `done` returns. -/
def Res.FromDone (res : Res) : Prop := res = .lok ∨ res = .ngxHttpParseInvalid09Method

theorem requestLineDone_fromDone (x : Nat) (q : RequestT) : (requestLineDone x q).1.FromDone := by
  rw [requestLineDone_fst]
  split_ifs
  · exact Or.inr rfl
  · exact Or.inl rfl

/-- A line ends at the label `done`, with its line feed as the last byte read. -/
theorem exists_run_of_done {mem : Mem} {r r' : RequestT} {b b' : LtBuffer} {res : Res}
    (h : ngxHttpParseRequestLine mem r b = (res, r', b')) (hRes : res.FromDone) :
    ∃ s p q, RequestLineState.ofNat? r.state = some s ∧
      run (requestLineStep mem) b.pos (s, r) (b.unread mem) = .halted p (.done q) ∧
      requestLineDone p q = (res, r') ∧ b' = { b with pos := p + 1 } := by
  have hAgain : res ≠ .lagain := by
    rintro rfl
    exact hRes.elim nofun nofun
  rw [ngxHttpParseRequestLine] at h
  cases hState : RequestLineState.ofNat? r.state with
  | none =>
      rw [hState] at h
      exact absurd (congrArg Prod.fst h).symm hAgain
  | some s =>
  rw [hState] at h
  simp only at h
  cases hRun : run (requestLineStep mem) b.pos (s, r) (b.unread mem) with
  | pending σ =>
      rw [hRun] at h
      exact absurd (congrArg Prod.fst h).symm hAgain
  | halted p e =>
      rw [hRun] at h
      cases e with
      | fail code q =>
          obtain ⟨xs, c, ys, t, -, -, -, hHalt⟩ := exists_prefix_of_halted hRun
          have hFail := requestLineStep_fail mem p t c
          rw [hHalt] at hFail
          obtain rfl : code = res := congrArg Prod.fst h
          rcases hFail code q rfl with rfl | rfl <;> exact hRes.elim nofun nofun
      | done q =>
          simp only [Prod.mk.injEq] at h
          exact ⟨s, p, q, rfl, hRun, Prod.ext h.1 h.2.1, h.2.2.symm⟩

theorem exists_run_of_accepted {mem : Mem} {r r' : RequestT} {b b' : LtBuffer}
    (h : ngxHttpParseRequestLine mem r b = (.lok, r', b')) :
    ∃ s p q, RequestLineState.ofNat? r.state = some s ∧
      run (requestLineStep mem) b.pos (s, r) (b.unread mem) = .halted p (.done q) ∧
      requestLineDone p q = (.lok, r') ∧ b' = { b with pos := p + 1 } :=
  exists_run_of_done h (Or.inl rfl)

theorem exists_run_of_lok {mem : Mem} {r r' : RequestT} {b b' : LtBuffer} (hState : r.state = 0)
    (h : ngxHttpParseRequestLine mem r b = (.lok, r', b')) :
    ∃ p q, run (requestLineStep mem) b.pos (.start, r) (b.unread mem) = .halted p (.done q) ∧
      requestLineDone p q = (.lok, r') ∧ b' = { b with pos := p + 1 } := by
  obtain ⟨s, p, q, hs, hRun⟩ := exists_run_of_accepted h
  rw [hState, RequestLineState.ofNat?_zero] at hs
  obtain rfl := Option.some.inj hs
  exact ⟨p, q, hRun⟩

/-- Acceptance resets the state. -/
theorem ngxHttpParseRequestLine_state {mem : Mem} {r r' : RequestT} {b b' : LtBuffer}
    (h : ngxHttpParseRequestLine mem r b = (.lok, r', b')) : r'.state = 0 := by
  obtain ⟨-, p, q, -, -, hDone, -⟩ := exists_run_of_accepted h
  have hReq : r' = (requestLineDone p q).2 := by rw [hDone]
  rw [hReq, requestLineDone, apply_ite Prod.snd, ite_self]

end Leactor
