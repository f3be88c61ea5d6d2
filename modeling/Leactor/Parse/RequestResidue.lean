import Leactor.Parse.RequestSpec

/-! What an old request leaves in the parse of the next request line: two old
contents of a request are compared, on the same bytes. -/
namespace Leactor

open Ascii Scan Memory

structure SameFlags (r r' : RequestT) : Prop where
  complexUri : r.complexUri = r'.complexUri
  quotedUri : r.quotedUri = r'.quotedUri
  spaceInUri : r.spaceInUri = r'.spaceInUri

def SameControl (σ τ : RequestLineScan) : Prop := σ.1 = τ.1 ∧ SameFlags σ.2 τ.2

def LineExit.SameControl : LineExit → LineExit → Prop
  | .done q, .done q' => SameFlags q q'
  | .fail res _, .fail res' _ => res = res'
  | _, _ => False

/-- Which way a scan takes depends on the bytes only. -/
theorem requestLineStep_sameControl (mem : Mem) {p : Nat} {σ τ : RequestLineScan} (ch : UInt8)
    (h : SameControl σ τ) :
    (requestLineStep mem p σ ch).Rel SameControl LineExit.SameControl (requestLineStep mem p τ ch) := by
  obtain ⟨s, r⟩ := σ
  obtain ⟨t, r'⟩ := τ
  obtain ⟨rfl, hComplex, hQuoted, hSpace⟩ := h
  unfold requestLineStep requestLineStepWith
  cases s
  all_goals
    simp only [hostStep, hostEndStep, checkUriStep, uriStep, afterSlashInUriStep, expect]
    repeat' refine Verdict.rel_ite (fun _ => ?_) fun _ => ?_
    all_goals first
      | exact (rfl : (_ : Res) = _)
      | exact ⟨rfl, hComplex, hQuoted, hSpace⟩
      | exact ⟨rfl, rfl, hQuoted, hSpace⟩
      | exact ⟨rfl, hComplex, rfl, hSpace⟩
      | exact ⟨rfl, hComplex, hQuoted, rfl⟩
      | exact ⟨rfl, rfl, hQuoted, rfl⟩
      | exact ⟨rfl, hComplex, rfl, rfl⟩
      | exact ⟨hComplex, hQuoted, hSpace⟩
      | exact ⟨hComplex, hQuoted, rfl⟩

/-- The old contents that show in the parse of a request line. -/
structure SameLineResidue (r r' : RequestT) : Prop where
  method : r.method = r'.method
  version : wrap32 (r.httpMajor * 1000 + 9) = wrap32 (r'.httpMajor * 1000 + 9)
  flags : SameFlags r r'
  uri : r.uri.data = r'.uri.data
  protocol : r.httpProtocol.data = r'.httpProtocol.data
  requestEnd : (r.requestEnd = 0 ↔ r'.requestEnd = 0) ∧ wrap32 r.requestEnd = wrap32 r'.requestEnd
  upstream : r.upstream = 0 ↔ r'.upstream = 0

/-- Two finished request lines that look the same to the code behind the parser. -/
structure SameLine (q q' : RequestT) : Prop where
  method : q.method = q'.method
  httpVersion : q.httpVersion = q'.httpVersion
  flags : SameFlags q q'
  requestStart : q.requestStart = q'.requestStart
  methodEnd : q.methodEnd = q'.methodEnd
  uriStart : q.uriStart = q'.uriStart
  uriEnd : q.uriEnd = q'.uriEnd
  uri : q.uri.data = q'.uri.data
  protocol : q.httpProtocol.data = q'.httpProtocol.data
  requestEnd : wrap32 q.requestEnd = wrap32 q'.requestEnd
  upstream : q.upstream = 0 ↔ q'.upstream = 0

section Line

variable (mem : Mem) {r r' : RequestT} (b : LtBuffer)

/-- The two scans of a line end alike. -/
theorem run_sameControl (hFlags : SameFlags r r') :
    (run (requestLineStep mem) b.pos (.start, r) (b.unread mem)).Rel SameControl
      (fun x e y e' => x = y ∧ e.SameControl e')
      (run (requestLineStep mem) b.pos (.start, r') (b.unread mem)) := by
  have hSim := run_sim (M := requestLineStep mem) (N := requestLineStep mem) (p := b.pos) (q := b.pos)
    (R := fun _ => SameControl) (S := fun _ => LineExit.SameControl) (n := 0) (w := b.unread mem)
    (s := (.start, r)) (t := (.start, r')) (fun _ _ _ _ c _ h => requestLineStep_sameControl mem c h) ⟨rfl, hFlags⟩
  rw [Nat.add_zero] at hSim
  revert hSim
  cases run (requestLineStep mem) b.pos (.start, r) (b.unread mem) with
  | pending σ =>
      cases run (requestLineStep mem) b.pos (.start, r') (b.unread mem) with
      | pending τ => exact id
      | halted y e' => exact id
  | halted x e =>
      cases run (requestLineStep mem) b.pos (.start, r') (b.unread mem) with
      | pending τ => exact id
      | halted y e' =>
          rintro ⟨i, -, rfl, rfl, hExit⟩
          exact ⟨rfl, hExit⟩

variable {mem b}

/-- What the scan of a line has stored where it comes to `done`. -/
theorem exists_readsRequestLine {x : Nat} {q : RequestT} {t : RequestLineText} {rest : List UInt8}
    (hUnread : b.unread mem = t.bytes ++ rest)
    (hRun : run (requestLineStep mem) b.pos (.start, r) (b.unread mem) = .halted x (.done q)) :
    ReadsRequestLine mem t b.pos r q := by
  obtain ⟨q', hText, hReads⟩ := run_requestLine mem (p := b.pos) (r := r) t
  rw [hUnread, run_append_of_halted rest hText] at hRun
  cases hRun
  exact hReads

/-- Lines that end at `done` with the same residue look the same behind it: the fields
that the line does not set are those of the residue. -/
theorem sameLine_of_reads {t : RequestLineText} {q q' : RequestT} (x : Nat) (h : SameLineResidue r r')
    (hReads : ReadsRequestLine mem t b.pos r q) (hReads' : ReadsRequestLine mem t b.pos r' q')
    (hFlags : SameFlags q q') : SameLine (requestLineDone x q).2 (requestLineDone x q').2 := by
  have hVersion : wrap32 (q.httpMajor * 1000 + q.httpMinor) = wrap32 (q'.httpMajor * 1000 + q'.httpMinor) := by
    rw [hReads.major, hReads'.major, hReads.minor, hReads'.minor]
    cases t.version with
    | none => exact h.version
    | some v => rfl
  have hUri : q.uri = r.uri := by
    have hField := congrArg RequestT.uri hReads.frame
    exact hField
  have hUri' : q'.uri = r'.uri := by
    have hField := congrArg RequestT.uri hReads'.frame
    exact hField
  have hUpstream : q.upstream = r.upstream := by
    have hField := congrArg RequestT.upstream hReads.frame
    exact hField
  have hUpstream' : q'.upstream = r'.upstream := by
    have hField := congrArg RequestT.upstream hReads'.frame
    exact hField
  have hEnd : wrap32 (if q.requestEnd = 0 then x else q.requestEnd : Nat) =
      wrap32 (if q'.requestEnd = 0 then x else q'.requestEnd : Nat) := by
    rw [hReads.requestEnd, hReads'.requestEnd]
    cases t.crlf with
    | true => rfl
    | false =>
        simp only [Bool.false_eq_true, if_false, h.requestEnd.1]
        split_ifs
        · rfl
        · exact h.requestEnd.2
  rw [requestLineDone_snd, requestLineDone_snd]
  refine ⟨?_, hVersion, ⟨hFlags.complexUri, hFlags.quotedUri, hFlags.spaceInUri⟩, ?_, ?_, ?_, ?_, ?_, ?_, hEnd,
    ?_⟩
  · exact hReads.method.trans ((congrArg _ h.method).trans hReads'.method.symm)
  · exact hReads.requestStart.trans hReads'.requestStart.symm
  · exact hReads.methodEnd.trans hReads'.methodEnd.symm
  · exact hReads.uriStart.trans hReads'.uriStart.symm
  · exact hReads.uriEnd.trans hReads'.uriEnd.symm
  · exact (congrArg LtString.data hUri).trans (h.uri.trans (congrArg LtString.data hUri').symm)
  · refine hReads.protocol.trans (Eq.trans ?_ hReads'.protocol.symm)
    rw [h.protocol]
  · simp only [hUpstream, hUpstream', h.upstream]

variable (mem b) in
/-- With the same residue the parser answers alike, on every buffer. What it leaves of a
line that it does not accept is not compared. -/
theorem ngxHttpParseRequestLine_sameResidue (hState : r.state = 0) (hState' : r'.state = 0)
    (h : SameLineResidue r r') :
    (ngxHttpParseRequestLine mem r b).1 = (ngxHttpParseRequestLine mem r' b).1 ∧
      (ngxHttpParseRequestLine mem r b).2.2 = (ngxHttpParseRequestLine mem r' b).2.2 ∧
      ((ngxHttpParseRequestLine mem r b).1 = .lok →
        SameLine (ngxHttpParseRequestLine mem r b).2.1 (ngxHttpParseRequestLine mem r' b).2.1) := by
  have hSim := run_sameControl mem b h.flags
  simp only [ngxHttpParseRequestLine, hState, hState', RequestLineState.ofNat?_zero]
  cases hRun : run (requestLineStep mem) b.pos (.start, r) (b.unread mem) with
  | pending σ =>
      rw [hRun] at hSim
      cases hRun' : run (requestLineStep mem) b.pos (.start, r') (b.unread mem) with
      | pending τ => exact ⟨rfl, rfl, fun hLok => by cases hLok⟩
      | halted y e' =>
          rw [hRun'] at hSim
          exact hSim.elim
  | halted x e =>
      rw [hRun] at hSim
      cases hRun' : run (requestLineStep mem) b.pos (.start, r') (b.unread mem) with
      | pending τ =>
          rw [hRun'] at hSim
          exact hSim.elim
      | halted y e' =>
          rw [hRun'] at hSim
          obtain ⟨rfl, hExit⟩ := hSim
          cases e with
          | fail res q =>
              cases e' with
              | done q' => exact hExit.elim
              | fail res' q' =>
                  obtain rfl : res = res' := hExit
                  obtain ⟨xs, c, ys, τ, -, -, -, hHalt⟩ := exists_prefix_of_halted hRun
                  have hFail := requestLineStep_fail mem x τ c
                  rw [hHalt] at hFail
                  refine ⟨rfl, rfl, fun hLok => ?_⟩
                  rcases hFail res q rfl with rfl | rfl <;> cases hLok
          | done q =>
              cases e' with
              | fail res' q' => exact hExit.elim
              | done q' =>
                  obtain ⟨t, rest, hUnread⟩ := exists_requestLineText_of_run hRun
                  have hSame := sameLine_of_reads x h (exists_readsRequestLine hUnread hRun)
                    (exists_readsRequestLine hUnread hRun') hExit
                  refine ⟨?_, rfl, fun _ => hSame⟩
                  have hMethod := hSame.method
                  have hVersion := hSame.httpVersion
                  rw [requestLineDone_snd, requestLineDone_snd] at hMethod hVersion
                  simp only at hMethod hVersion
                  rw [requestLineDone_fst, requestLineDone_fst, hVersion, hMethod]

end Line

end Leactor
