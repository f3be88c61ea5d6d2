import Leactor.Parse.RequestView
import Leactor.Parse.StatusLine

/-! The parsers fed in pieces: calls up to one cut after another, while they return
`LAGAIN`, leave what one call leaves. -/
namespace Leactor

open Ascii Scan Memory

def Res.SyntaxError (res : Res) : Prop :=
  res = .lerror ∨ res = .ngxHttpParseInvalidMethod ∨ res = .ngxHttpParseInvalidRequest ∨
    res = .ngxHttpParseInvalidHeader

section Feed

variable {τ σ ρ : Type}

/-- A parser takes its data and a buffer; it returns a code and leaves both. -/
abbrev Parser (τ : Type) := τ → LtBuffer → Res × τ × LtBuffer

/-- Calls with `b->last` at each cut, and then at `last`, while they return `LAGAIN`. -/
def feed (parse : Parser τ) : List Nat → Nat → τ → LtBuffer → Res × τ × LtBuffer
  | [], last, x, b => parse x { b with last := last }
  | c :: cuts, last, x, b =>
      match parse x { b with last := c } with
      | (.lagain, x', b') => feed parse cuts last x' b'
      | out => out

/-- Two calls return one code and, unless it is a syntax error, leave the same data
and the same position. -/
def SameParse (out out' : Res × τ × LtBuffer) : Prop :=
  out.1 = out'.1 ∧ (¬ out.1.SyntaxError → out.2.1 = out'.2.1 ∧ out.2.2.pos = out'.2.2.pos)

theorem SameParse.trans {o₁ o₂ o₃ : Res × τ × LtBuffer} (h : SameParse o₁ o₂) (h' : SameParse o₂ o₃) :
    SameParse o₁ o₃ := by
  refine ⟨h.1.trans h'.1, fun hOk => ?_⟩
  obtain ⟨hData, hPos⟩ := h.2 hOk
  obtain ⟨hData', hPos'⟩ := h'.2 (h.1 ▸ hOk)
  exact ⟨hData.trans hData', hPos.trans hPos'⟩

/-- A parser that may be called up to a cut first. -/
structure Resumes (parse : Parser τ) (Valid : τ → Prop) : Prop where
  again : ∀ {x x' b b' c}, Valid x → b.pos ≤ c → c ≤ b.last →
    parse x { b with last := c } = (.lagain, x', b') →
      Valid x' ∧ b' = { b with pos := c, last := c } ∧ SameParse (parse x' { b with pos := c }) (parse x b)
  halt : ∀ {x b c}, Valid x → b.pos ≤ c → c ≤ b.last → (parse x { b with last := c }).1 ≠ .lagain →
    SameParse (parse x { b with last := c }) (parse x b)

/-- What holds of one cut holds of every row of cuts, by induction over the cuts that
are left. -/
theorem Resumes.feed {parse : Parser τ} {Valid : τ → Prop} (h : Resumes parse Valid) {cuts : List Nat}
    {last : Nat} {x : τ} {b : LtBuffer} (hx : Valid x)
    (hCuts : (b.pos :: (cuts ++ [last])).Pairwise (· ≤ ·)) :
    SameParse (feed parse cuts last x b) (parse x { b with last := last }) := by
  induction cuts generalizing x b with
  | nil => exact ⟨rfl, fun _ => ⟨rfl, rfl⟩⟩
  | cons c cuts ih =>
      rw [List.cons_append, List.pairwise_cons] at hCuts
      obtain ⟨hFirst, hRest⟩ := hCuts
      have hLow : b.pos ≤ c := hFirst c List.mem_cons_self
      have hHigh : c ≤ last := (List.pairwise_cons.mp hRest).1 last (by simp)
      by_cases hAgain : (parse x { b with last := c }).1 = .lagain
      · obtain ⟨hValid, hBuf, hSame⟩ := h.again (b := { b with last := last }) hx hLow hHigh (Prod.ext hAgain rfl)
        have hStep : Leactor.feed parse (c :: cuts) last x b = Leactor.feed parse cuts last
            (parse x { b with last := c }).2.1 { b with pos := c, last := c } := by
          rw [Leactor.feed, show parse x { b with last := c } = (.lagain, _, _) from Prod.ext hAgain rfl]
          exact congrArg (Leactor.feed parse cuts last _) hBuf
        rw [hStep]
        exact (ih hValid hRest).trans hSame
      · have hStep : Leactor.feed parse (c :: cuts) last x b = parse x { b with last := c } := by
          rw [Leactor.feed]
          split
          · exact absurd (congrArg Prod.fst ‹_›) hAgain
          · rfl
        rw [hStep]
        exact h.halt (b := { b with last := last }) hx hLow hHigh hAgain

/-- What a call makes of the outcome of its scan. `ends` is what it returns and leaves
when the scan halts, and whether it moves the position. -/
def callResult (store : σ → τ) (ends : Nat → ρ → Res × τ × Bool) (b : LtBuffer) :
    Outcome σ ρ → Res × τ × LtBuffer
  | .pending s => (.lagain, store s, { b with pos := max b.pos b.last })
  | .halted p e =>
      ((ends p e).1, (ends p e).2.1, { b with pos := if (ends p e).2.2 then p + 1 else b.pos })

/-- Two ways to halt of which a caller sees the same. -/
def SameEnd (ends : Nat → ρ → Res × τ × Bool) (p : Nat) (e e' : ρ) : Prop :=
  (ends p e).1 = (ends p e').1 ∧
    (¬ (ends p e).1.SyntaxError → (ends p e).2.1 = (ends p e').2.1 ∧ (ends p e).2.2 ∧ (ends p e').2.2)

/-- A scan that can be stored and loaded again: `Rel` relates a scan that was loaded
again to the one that was not. -/
structure Reloads (M : Machine UInt8 σ ρ) (load : τ → σ) (store : σ → τ) (ends : Nat → ρ → Res × τ × Bool)
    (Valid : τ → Prop) (Inv : σ → Prop) (Rel : σ → σ → Prop) : Prop where
  start : ∀ {x}, Valid x → Inv (load x)
  step : ∀ {p s c}, Inv s → (M p s c).All Inv fun e => (ends p e).1 ≠ .lagain
  stored : ∀ {s}, Inv s → Valid (store s) ∧ Rel (load (store s)) s
  store_eq : ∀ {s t}, Rel s t → store s = store t
  rel : ∀ {p s t c}, Rel s t → (M p s c).Rel Rel (SameEnd ends p) (M p t c)

variable {M : Machine UInt8 σ ρ} {load : τ → σ} {store : σ → τ} {ends : Nat → ρ → Res × τ × Bool}
  {Valid : τ → Prop} {Inv : σ → Prop} {Rel : σ → σ → Prop}

/-- Related scans of one word have the same result: the same code and, unless this is a
syntax error, the same data and the same position. -/
theorem Reloads.sameParse (h : Reloads M load store ends Valid Inv Rel) {s t : σ} {w : List UInt8} {p : Nat}
    {b b' : LtBuffer} (hRel : Rel s t) (hPos : max b.pos b.last = max b'.pos b'.last) :
    SameParse (callResult store ends b (run M p s w)) (callResult store ends b' (run M p t w)) := by
  have hSim := run_sim (M := M) (N := M) (p := p) (q := p) (R := fun _ => Rel)
    (S := fun i => SameEnd ends (p + i)) (n := 0) (w := w) (fun i _ s t _ _ h' => h.rel h') hRel
  simp only [Nat.add_zero] at hSim
  cases hs : run M p s w with
  | pending s' =>
      cases ht : run M p t w with
      | pending t' =>
          rw [hs, ht] at hSim
          exact ⟨rfl, fun _ => ⟨h.store_eq hSim, hPos⟩⟩
      | halted y e' =>
          rw [hs, ht] at hSim
          exact hSim.elim
  | halted x e =>
      cases ht : run M p t w with
      | pending t' =>
          rw [hs, ht] at hSim
          exact hSim.elim
      | halted y e' =>
          rw [hs, ht] at hSim
          obtain ⟨i, -, rfl, rfl, hCode, hSame⟩ := hSim
          refine ⟨hCode, fun hOk => ?_⟩
          obtain ⟨hData, hMoves, hMoves'⟩ := hSame hOk
          exact ⟨hData, by simp only [callResult, hMoves, hMoves', if_true]⟩

theorem Reloads.resumes (h : Reloads M load store ends Valid Inv Rel) (mem : Mem) {parse : Parser τ}
    (hParse : ∀ x b, Valid x → parse x b = callResult store ends b (run M b.pos (load x) (b.unread mem))) :
    Resumes parse Valid := by
  have hFirst : ∀ {x p w}, Valid x →
      (run M p (load x) w).All Inv fun y e => (ends y e).1 ≠ .lagain :=
    fun hx => run_all (fun _ _ _ hInv => h.step hInv) (h.start hx)
  constructor
  · intro x x' b b' c hx hLow hHigh hCall
    have hInv := hFirst (p := b.pos) (w := slice mem b.pos c) hx
    rw [hParse _ _ hx] at hCall
    change callResult store ends _ (run M b.pos (load x) (slice mem b.pos c)) = _ at hCall
    cases hRun : run M b.pos (load x) (slice mem b.pos c) with
    | halted p e =>
        rw [hRun] at hCall hInv
        exact absurd (congrArg Prod.fst hCall) hInv
    | pending s =>
        rw [hRun] at hCall hInv
        obtain ⟨hValid, hRel⟩ := h.stored hInv
        simp only [callResult, Prod.mk.injEq, true_and, Nat.max_eq_right hLow] at hCall
        obtain ⟨rfl, rfl⟩ := hCall
        refine ⟨hValid, rfl, ?_⟩
        rw [hParse _ _ hValid, hParse _ _ hx, LtBuffer.unread, LtBuffer.unread, ← slice_append hLow hHigh,
          run_append_of_pending _ hRun, length_slice, Nat.add_sub_cancel' hLow]
        exact h.sameParse hRel (by simp only; omega)
  · intro x b c hx hLow hHigh hCode
    rw [hParse _ _ hx] at hCode ⊢
    rw [hParse _ _ hx, LtBuffer.unread, LtBuffer.unread]
    change (callResult store ends _ (run M b.pos (load x) (slice mem b.pos c))).1 ≠ _ at hCode
    cases hRun : run M b.pos (load x) (slice mem b.pos c) with
    | pending s =>
        rw [hRun] at hCode
        exact absurd rfl hCode
    | halted p e =>
        rw [← slice_append hLow hHigh, run_append_of_halted _ hRun]
        exact ⟨rfl, fun _ => ⟨rfl, rfl⟩⟩

end Feed

section Request

/-- How the label `done` and the errors of a request line end a call. -/
def lineEnds (p : Nat) : LineExit → Res × RequestT × Bool
  | .done r => ((requestLineDone p r).1, (requestLineDone p r).2, true)
  | .fail res r => (res, r, false)

def storeLine (σ : RequestLineScan) : RequestT := { σ.2 with state := σ.1.toNat }

def loadLine (r : RequestT) : RequestLineScan := ((RequestLineState.ofNat? r.state).getD .start, r)

/-- Two scans whose requests differ in the stored state only. -/
def SameButState (σ τ : RequestLineScan) : Prop := σ.1 = τ.1 ∧ ∃ k, σ.2 = { τ.2 with state := k }

theorem requestLineStep_sameButState {mem : Mem} {p : Nat} {σ τ : RequestLineScan} (c : UInt8)
    (h : SameButState σ τ) :
    (requestLineStep mem p σ c).Rel SameButState (SameEnd lineEnds p) (requestLineStep mem p τ c) := by
  obtain ⟨s, q⟩ := σ
  obtain ⟨t, r⟩ := τ
  obtain ⟨hState, k, hReq⟩ := h
  obtain rfl : s = t := hState
  obtain rfl : q = { r with state := k } := hReq
  unfold requestLineStep requestLineStepWith
  cases s
  all_goals
    simp only [hostStep, hostEndStep, checkUriStep, uriStep, afterSlashInUriStep, expect]
    repeat' refine Verdict.rel_ite (fun _ => ?_) fun _ => ?_
    all_goals first
      | exact ⟨rfl, k, rfl⟩
      | exact ⟨rfl, fun hOk => absurd (Or.inr (Or.inl rfl)) hOk⟩
      | exact ⟨rfl, fun hOk => absurd (Or.inr (Or.inr (Or.inl rfl))) hOk⟩
      | exact ⟨by simp only [lineEnds, requestLineDone_fst],
          fun _ => ⟨by simp only [lineEnds, requestLineDone_snd], rfl, rfl⟩⟩

theorem requestLine_resumes (mem : Mem) :
    Resumes (ngxHttpParseRequestLine mem) fun r => (RequestLineState.ofNat? r.state).isSome := by
  have hReloads : Reloads (requestLineStep mem) loadLine storeLine lineEnds
      (fun r => (RequestLineState.ofNat? r.state).isSome) (fun _ => True) SameButState := by
    refine ⟨fun _ => trivial, fun {p σ c} _ => ?_, fun {σ} _ => ⟨?_, ?_⟩, ?_, fun h => requestLineStep_sameButState _ h⟩
    · have hFail := requestLineStep_fail mem p σ c
      revert hFail
      cases requestLineStep mem p σ c with
      | next σ' => exact fun _ => trivial
      | halt e =>
          intro hFail
          cases e with
          | done r =>
              intro hAgain
              have hDone := requestLineDone_fromDone p r
              rw [show (requestLineDone p r).1 = _ from hAgain] at hDone
              exact hDone.elim nofun nofun
          | fail res r =>
              rintro (rfl : res = .lagain)
              exact (hFail _ _ rfl).elim nofun nofun
    · simp only [storeLine, RequestLineState.ofNat?_toNat, Option.isSome_some]
    · refine ⟨?_, _, rfl⟩
      simp only [loadLine, storeLine, RequestLineState.ofNat?_toNat, Option.getD_some]
    · rintro ⟨s, q⟩ ⟨t, r⟩ ⟨hState, k, hReq⟩
      obtain rfl : s = t := hState
      obtain rfl : q = { r with state := k } := hReq
      rfl
  refine hReloads.resumes mem fun r b hValid => ?_
  obtain ⟨s, hs⟩ := Option.isSome_iff_exists.mp hValid
  rw [ngxHttpParseRequestLine, loadLine, hs]
  simp only [Option.getD_some]
  cases run (requestLineStep mem) b.pos (s, r) (b.unread mem) with
  | pending σ => rfl
  | halted p e => cases e <;> rfl

end Request

section Status

def statusEnds (p : Nat) : StatusExit → Res × (RequestT × HttpStatus) × Bool
  | .done r status =>
      (.lok, ({ r with state := 0 }, { status with
        end_ := if status.end_ = 0 then p else status.end_
        httpVersion := wrap32 (r.httpMajor * 1000 + r.httpMinor) }), true)
  | .error r status => (.lerror, (r, status), false)

def storeStatus (σ : StatusLineScan) : RequestT × HttpStatus := ({ σ.req with state := σ.state.toNat }, σ.status)

def loadStatus (x : RequestT × HttpStatus) : StatusLineScan :=
  ⟨(StatusLineState.ofNat? x.1.state).getD .start, x.1, x.2⟩

/-- The parser of a status line, with the status among its data. -/
def statusParser (mem : Mem) : Parser (RequestT × HttpStatus) := fun x b =>
  let (res, r, b', status) := ngxHttpParseStatusLine mem x.1 b x.2
  (res, (r, status), b')

/-- Two scans whose requests differ in the stored state only. -/
def SameButStatusState (σ τ : StatusLineScan) : Prop :=
  σ.state = τ.state ∧ σ.status = τ.status ∧ ∃ k, σ.req = { τ.req with state := k }

theorem statusLineStep_sameButState {p : Nat} {σ τ : StatusLineScan} (c : UInt8) (h : SameButStatusState σ τ) :
    (statusLineStep p σ c).Rel SameButStatusState (SameEnd statusEnds p) (statusLineStep p τ c) := by
  obtain ⟨s, q, status⟩ := σ
  obtain ⟨t, r, status'⟩ := τ
  obtain ⟨hState, hStatus, k, hReq⟩ := h
  obtain rfl : s = t := hState
  obtain rfl : status = status' := hStatus
  obtain rfl : q = { r with state := k } := hReq
  unfold statusLineStep
  cases s
  all_goals
    simp only [expectStatus]
    repeat' refine Verdict.rel_ite (fun _ => ?_) fun _ => ?_
    all_goals first
      | exact ⟨rfl, rfl, k, rfl⟩
      | exact ⟨rfl, fun hOk => absurd (Or.inl rfl) hOk⟩
      | exact ⟨rfl, fun _ => ⟨rfl, rfl, rfl⟩⟩

theorem statusLine_resumes (mem : Mem) :
    Resumes (statusParser mem) fun x => (StatusLineState.ofNat? x.1.state).isSome := by
  have hReloads : Reloads statusLineStep loadStatus storeStatus statusEnds
      (fun x => (StatusLineState.ofNat? x.1.state).isSome) (fun _ => True) SameButStatusState := by
    refine ⟨fun _ => trivial, fun {p σ c} _ => ?_, fun {σ} _ => ⟨?_, ?_⟩, ?_, fun h => statusLineStep_sameButState _ h⟩
    · cases statusLineStep p σ c with
      | next σ' => exact trivial
      | halt e => cases e <;> exact nofun
    · simp only [storeStatus, StatusLineState.ofNat?_toNat, Option.isSome_some]
    · refine ⟨?_, rfl, _, rfl⟩
      simp only [loadStatus, storeStatus, StatusLineState.ofNat?_toNat, Option.getD_some]
    · rintro ⟨s, q, status⟩ ⟨t, r, status'⟩ ⟨hState, hStatus, k, hReq⟩
      obtain rfl : s = t := hState
      obtain rfl : status = status' := hStatus
      obtain rfl : q = { r with state := k } := hReq
      rfl
  refine hReloads.resumes mem fun x b hValid => ?_
  obtain ⟨s, hs⟩ := Option.isSome_iff_exists.mp hValid
  rw [statusParser, ngxHttpParseStatusLine, loadStatus, hs]
  simp only [Option.getD_some]
  cases run statusLineStep b.pos ⟨s, x.1, x.2⟩ (b.unread mem) with
  | pending σ => rfl
  | halted p e => cases e <;> rfl

end Status

section Header

def headerEnds (_ : Nat) : HeaderExit → Res × RequestT × Bool
  | .done σ =>
      (.lok, { σ.req with
        state := 0, headerHash := σ.hash, lowcaseIndex := σ.i
        headerLength := wrap32 (ptrDiff σ.req.headerEnd σ.req.headerNameStart + 2) }, true)
  | .headerDone r => (.ngxHttpParseHeaderDone, { r with state := 0 }, true)
  | .invalid r => (.ngxHttpParseInvalidHeader, r, false)

def storeHeader (σ : HeaderLineScan) : RequestT :=
  { σ.req with state := σ.state.toNat, headerHash := σ.hash, lowcaseIndex := σ.i }

def loadHeader (r : RequestT) : HeaderLineScan :=
  ⟨(HeaderLineState.ofNat? r.state).getD .start, r, r.headerHash, r.lowcaseIndex⟩

/-- The states in front of a name. Only from them a scan comes to the end of the header. -/
def HeaderLineState.InFront : HeaderLineState → Prop
  | .start | .ignoreLine | .headerAlmostDone => True
  | _ => False

/-- In front of a name the locals are still those of the request. -/
structure HeaderLocals (σ : HeaderLineScan) : Prop where
  upstream : σ.req.upstream = 0
  hash : σ.state.InFront → σ.hash = σ.req.headerHash
  index : σ.state.InFront → σ.i = σ.req.lowcaseIndex

/-- Two scans whose requests differ in what the exits write back only. -/
structure SameButLocals (σ τ : HeaderLineScan) : Prop where
  state : σ.state = τ.state
  hash : σ.hash = τ.hash
  index : σ.i = τ.i
  req : ∃ k h i, σ.req = { τ.req with state := k, headerHash := h, lowcaseIndex := i } ∧
    (τ.state.InFront → h = τ.req.headerHash ∧ i = τ.req.lowcaseIndex)
  upstream : τ.req.upstream = 0

theorem headerLineStep_locals {mem : Mem} {allow : Bool} {p : Nat} {σ : HeaderLineScan} (c : UInt8)
    (h : HeaderLocals σ) :
    (headerLineStep mem allow p σ c).All HeaderLocals fun e => (headerEnds p e).1 ≠ .lagain := by
  obtain ⟨s, r, hash, i⟩ := σ
  obtain ⟨hUpstream, hHash, hIndex⟩ := h
  unfold headerLineStep
  cases s
  all_goals
    repeat' refine Verdict.all_ite (fun hc => ?_) fun _ => ?_
    all_goals first
      | exact fun hAgain => by cases hAgain
      | exact ⟨hUpstream, hHash, hIndex⟩
      | exact ⟨hUpstream, False.elim, False.elim⟩
      | exact absurd hUpstream hc.2.1

theorem headerLineStep_sameButLocals {mem : Mem} {allow : Bool} {p : Nat} {σ τ : HeaderLineScan} (c : UInt8)
    (h : SameButLocals σ τ) :
    (headerLineStep mem allow p σ c).Rel SameButLocals (SameEnd headerEnds p) (headerLineStep mem allow p τ c) := by
  obtain ⟨s, q, hash, i⟩ := σ
  obtain ⟨t, r, hash', i'⟩ := τ
  obtain ⟨hState, hHash, hIndex, ⟨k, x, j, hReq, hFront⟩, hUpstream⟩ := h
  obtain rfl : s = t := hState
  obtain rfl : hash = hash' := hHash
  obtain rfl : i = i' := hIndex
  obtain rfl : q = { r with state := k, headerHash := x, lowcaseIndex := j } := hReq
  unfold headerLineStep
  cases s with
  | start | headerAlmostDone =>
      -- the end of the header writes no locals back
      obtain ⟨rfl, rfl⟩ := hFront trivial
      repeat' refine Verdict.rel_ite (fun _ => ?_) fun _ => ?_
      all_goals first
        | exact ⟨rfl, rfl, rfl, ⟨k, _, _, rfl, fun _ => ⟨rfl, rfl⟩⟩, hUpstream⟩
        | exact ⟨rfl, fun hOk => absurd (Or.inr (Or.inr (Or.inr rfl))) hOk⟩
        | exact ⟨rfl, fun _ => ⟨rfl, rfl, rfl⟩⟩
  | name | spaceBeforeValue | value | spaceAfterValue | ignoreLine | almostDone =>
      repeat' refine Verdict.rel_ite (fun hc => ?_) fun _ => ?_
      all_goals first
        | exact ⟨rfl, rfl, rfl, ⟨k, _, _, rfl, hFront⟩, hUpstream⟩
        | exact ⟨rfl, rfl, rfl, ⟨k, _, _, rfl, False.elim⟩, hUpstream⟩
        | exact ⟨rfl, fun hOk => absurd (Or.inr (Or.inr (Or.inr rfl))) hOk⟩
        | exact ⟨rfl, fun _ => ⟨rfl, rfl, rfl⟩⟩
        | exact absurd hUpstream hc.2.1

/-- A header line of a request may be fed in pieces. -/
theorem headerLine_resumes (mem : Mem) (allow : Bool) :
    Resumes (fun r b => ngxHttpParseHeaderLine mem r b allow)
      fun r => (HeaderLineState.ofNat? r.state).isSome ∧ r.upstream = 0 := by
  have hReloads : Reloads (headerLineStep mem allow) loadHeader storeHeader headerEnds
      (fun r => (HeaderLineState.ofNat? r.state).isSome ∧ r.upstream = 0) HeaderLocals SameButLocals := by
    refine ⟨fun hx => ⟨hx.2, fun _ => rfl, fun _ => rfl⟩, fun h => headerLineStep_locals _ h,
      fun {σ} h => ⟨⟨?_, h.upstream⟩, ?_⟩, ?_, fun h => headerLineStep_sameButLocals _ h⟩
    · simp only [storeHeader, HeaderLineState.ofNat?_toNat, Option.isSome_some]
    · refine ⟨?_, rfl, rfl, ⟨_, _, _, rfl, fun hFront => ⟨h.hash hFront, h.index hFront⟩⟩, h.upstream⟩
      simp only [loadHeader, storeHeader, HeaderLineState.ofNat?_toNat, Option.getD_some]
    · rintro ⟨s, q, hash, i⟩ ⟨t, r, hash', i'⟩ ⟨hState, hHash, hIndex, ⟨k, x, j, hReq, -⟩, -⟩
      obtain rfl : s = t := hState
      obtain rfl : hash = hash' := hHash
      obtain rfl : i = i' := hIndex
      obtain rfl : q = { r with state := k, headerHash := x, lowcaseIndex := j } := hReq
      rfl
  refine hReloads.resumes mem fun r b hValid => ?_
  obtain ⟨s, hs⟩ := Option.isSome_iff_exists.mp hValid.1
  rw [ngxHttpParseHeaderLine, loadHeader, hs]
  simp only [Option.getD_some]
  cases run (headerLineStep mem allow) b.pos ⟨s, r, r.headerHash, r.lowcaseIndex⟩ (b.unread mem) with
  | pending σ => rfl
  | halted p e => cases e <;> rfl

end Header

/-- Each of the parsers, called up to one cut after another while it returns `LAGAIN`,
returns the code of one call over all the bytes and, unless it is a syntax error,
leaves the same position and data. -/
theorem parsers_resume {mem : Mem} {b : LtBuffer} {cuts : List Nat}
    (hCuts : (b.pos :: (cuts ++ [b.last])).Pairwise (· ≤ ·)) :
    (∀ r, (RequestLineState.ofNat? r.state).isSome →
      SameParse (feed (ngxHttpParseRequestLine mem) cuts b.last r b) (ngxHttpParseRequestLine mem r b)) ∧
    (∀ r allow, (HeaderLineState.ofNat? r.state).isSome → r.upstream = 0 →
      SameParse (feed (fun r b => ngxHttpParseHeaderLine mem r b allow) cuts b.last r b)
        (ngxHttpParseHeaderLine mem r b allow)) ∧
    ∀ r status, (StatusLineState.ofNat? r.state).isSome →
      SameParse (feed (statusParser mem) cuts b.last (r, status) b) (statusParser mem (r, status) b) :=
  ⟨fun _ hValid => (requestLine_resumes mem).feed hValid hCuts,
    fun _ allow hValid hUpstream => (headerLine_resumes mem allow).feed ⟨hValid, hUpstream⟩ hCuts,
    fun r status hValid => (statusLine_resumes mem).feed (x := (r, status)) hValid hCuts⟩

/-- The line `GET /` after two and after five of its bytes. -/
theorem parsers_resume_get :
    SameParse
      (feed (ngxHttpParseRequestLine (place (fun _ => 0) 1 (ofChars ['G', 'E', 'T', ' ', '/'] ++ [lf]))) [3, 6] 7 {}
        ⟨1, 1, 7, 7⟩)
      (ngxHttpParseRequestLine (place (fun _ => 0) 1 (ofChars ['G', 'E', 'T', ' ', '/'] ++ [lf])) {} ⟨1, 1, 7, 7⟩) :=
  (@parsers_resume _ ⟨1, 1, 7, 7⟩ [3, 6] (by decide)).1 {} rfl

end Leactor
