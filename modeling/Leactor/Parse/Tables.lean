import Leactor.Library.Run
import Leactor.Parse.HeaderLine
import Leactor.Parse.RequestView

/-! The tables of the parsers: the indices at which `usual[]` and `lowcase[]` are read
and `lowcase_header[]` is written, in any row of calls on one request. -/
namespace Leactor

open Ascii Scan Memory

inductive TableAccess where
  | usual (i : Int)
  | lowcase (i : Int)
  | lowcaseHeader (i : Int)
  deriving DecidableEq

def LowcaseIndex (i : Int) : Prop := 0 ≤ i ∧ i ≤ 31

instance : DecidablePred LowcaseIndex := fun _ => inferInstanceAs (Decidable (_ ∧ _))

def TableAccess.InRange : TableAccess → Prop
  | usual i => 0 ≤ i ∧ i ≤ 7
  | lowcase i => 0 ≤ i ∧ i ≤ 255
  | lowcaseHeader i => LowcaseIndex i

def Stores (accesses : List TableAccess) : Prop := ∃ i, .lowcaseHeader i ∈ accesses

instance : DecidablePred TableAccess.InRange
  | .usual _ => inferInstanceAs (Decidable (_ ∧ _))
  | .lowcase _ => inferInstanceAs (Decidable (_ ∧ _))
  | .lowcaseHeader _ => inferInstanceAs (Decidable (_ ∧ _))

/-- The states that look bytes up in `usual[]`, two of them after a step back. -/
def RequestLineState.LooksUp : RequestLineState → Prop
  | .afterSlashInUri | .checkUri | .uri | .checkUriHttp09 | .http09 => True
  | _ => False

/-- The accesses of one turn of the loop of `ngx_http_parse_request_line`. -/
def requestLineAccesses (σ : RequestLineScan) (ch : UInt8) : List TableAccess :=
  match σ.1 with
  | .afterSlashInUri | .checkUri | .uri => [.usual (usualIndex ch)]
  | .checkUriHttp09 | .http09 =>
      if ch = sp ∨ ch = cr ∨ ch = lf ∨ ch = upperH then [] else [.usual (usualIndex ch)]
  | _ => []

def StoredByte (allowUnderscores : Bool) (ch : UInt8) : Prop :=
  lowcase ch ≠ 0 ∨ ch = underscore ∧ allowUnderscores = true

instance (allowUnderscores : Bool) : DecidablePred (StoredByte allowUnderscores) := fun _ =>
  inferInstanceAs (Decidable (_ ∨ _))

/-- The accesses of one turn of the loop of `ngx_http_parse_header_line`. -/
def headerLineAccesses (allowUnderscores : Bool) (σ : HeaderLineScan) (ch : UInt8) : List TableAccess :=
  match σ.state with
  | .start =>
      if ch = cr ∨ ch = lf then []
      else .lowcase ch.toNat :: if StoredByte allowUnderscores ch then [.lowcaseHeader 0] else []
  | .name => .lowcase ch.toNat :: if StoredByte allowUnderscores ch then [.lowcaseHeader σ.i] else []
  | _ => []

/-- The header scan of a call in the state `s`. -/
def headerTrace (mem : Mem) (allow : Bool) (p : Nat) (s : HeaderLineState) (r : RequestT) (w : List UInt8) :
    List TableAccess :=
  trace (headerLineStep mem allow) (headerLineAccesses allow) p ⟨s, r, r.headerHash, r.lowcaseIndex⟩ w

inductive ParseCall where
  | line (mem : Mem) (b : LtBuffer)
  | header (mem : Mem) (b : LtBuffer) (allowUnderscores : Bool)

namespace ParseCall

def accesses (r : RequestT) : ParseCall → List TableAccess
  | line mem b =>
      match RequestLineState.ofNat? r.state with
      | none => []
      | some s => trace (requestLineStep mem) requestLineAccesses b.pos (s, r) (b.unread mem)
  | header mem b allow =>
      match HeaderLineState.ofNat? r.state with
      | none => []
      | some s => headerTrace mem allow b.pos s r (b.unread mem)

def result (r : RequestT) : ParseCall → RequestT
  | line mem b => (ngxHttpParseRequestLine mem r b).2.1
  | header mem b allow => (ngxHttpParseHeaderLine mem r b allow).2.1

/-- The first byte that a header call in the state `s` writes to `lowcase_header` is the first of its name. -/
def StoresInFront (mem : Mem) (allow : Bool) (p : Nat) (s : HeaderLineState) (r : RequestT) (w : List UInt8) : Prop :=
  ∀ xs c ys σ, w = xs ++ c :: ys →
    run (headerLineStep mem allow) p ⟨s, r, r.headerHash, r.lowcaseIndex⟩ xs = .pending σ →
    ¬ Stores (headerTrace mem allow p s r xs) → Stores (headerLineAccesses allow σ c) → σ.state = .start

/-- What keeps a call inside its tables: the path states of a request line see 7-bit bytes,
and a header call finds an index of the table or begins with the first byte of a name. -/
def Meets (r : RequestT) : ParseCall → Prop
  | line mem b => ∀ s, RequestLineState.ofNat? r.state = some s → ∀ xs c ys σ, b.unread mem = xs ++ c :: ys →
      run (requestLineStep mem) b.pos (s, r) xs = .pending σ → σ.1.LooksUp → c < 0x80
  | header mem b allow => ∀ s, HeaderLineState.ofNat? r.state = some s →
      LowcaseIndex r.lowcaseIndex ∨ StoresInFront mem allow b.pos s r (b.unread mem)

end ParseCall

theorem usualIndex_inRange_iff : ∀ ch : UInt8, (0 ≤ usualIndex ch ∧ usualIndex ch ≤ 7) ↔ ch < 0x80 := by
  apply forall_byte
  decide +kernel

theorem requestLineAccesses_inRange_iff (σ : RequestLineScan) (ch : UInt8) :
    (∀ a ∈ requestLineAccesses σ ch, a.InRange) ↔ (σ.1.LooksUp → ch < 0x80) := by
  have hOne : (∀ a ∈ [TableAccess.usual (usualIndex ch)], a.InRange) ↔ ch < 0x80 := by
    rw [List.forall_mem_singleton, ← usualIndex_inRange_iff]
    rfl
  obtain ⟨s, r⟩ := σ
  cases s with
  | afterSlashInUri | checkUri | uri => exact hOne.trans ⟨fun h _ => h, fun h => h trivial⟩
  | checkUriHttp09 | http09 =>
      simp only [requestLineAccesses]
      by_cases hSmall : ch = sp ∨ ch = cr ∨ ch = lf ∨ ch = upperH
      · rw [if_pos hSmall]
        refine iff_of_true (List.forall_mem_nil _) fun _ => ?_
        rcases hSmall with rfl | rfl | rfl | rfl <;> decide
      · rw [if_neg hSmall]
        exact hOne.trans ⟨fun h _ => h, fun h => h trivial⟩
  | _ => exact iff_of_true (List.forall_mem_nil _) False.elim

theorem lineCall_inRange_iff (r : RequestT) (mem : Mem) (b : LtBuffer) :
    (∀ a ∈ (ParseCall.line mem b).accesses r, a.InRange) ↔ (ParseCall.line mem b).Meets r := by
  unfold ParseCall.accesses ParseCall.Meets
  cases hState : RequestLineState.ofNat? r.state with
  | none => simp
  | some s =>
      simp only [Option.some.injEq, forall_eq', mem_trace]
      constructor
      · intro h xs c ys σ hWord hRun
        exact (requestLineAccesses_inRange_iff σ c).mp fun a ha => h a ⟨xs, c, ys, σ, hWord, hRun, ha⟩
      · rintro h a ⟨xs, c, ys, σ, hWord, hRun, ha⟩
        exact (requestLineAccesses_inRange_iff σ c).mpr (h xs c ys σ hWord hRun) a ha

section Header

variable {mem : Mem} {allow : Bool} {p : Nat} {s : HeaderLineState} {r : RequestT}

theorem stores_append {xs ys : List TableAccess} : Stores (xs ++ ys) ↔ Stores xs ∨ Stores ys := by
  simp only [Stores, List.mem_append, exists_or]

theorem not_stores_nil : ¬ Stores [] := fun ⟨_, hMem⟩ => absurd hMem List.not_mem_nil

/-- The accesses of a name: its byte is looked up, and may be stored at `i`. -/
theorem stores_name {c : UInt8} {i : Int} :
    Stores (.lowcase c.toNat :: if StoredByte allow c then [.lowcaseHeader i] else []) ↔ StoredByte allow c := by
  by_cases hStored : StoredByte allow c
  · exact iff_of_true ⟨i, by simp [hStored]⟩ hStored
  · refine iff_of_false (fun ⟨j, hMem⟩ => ?_) hStored
    simp [hStored] at hMem

theorem inRange_name {c : UInt8} {i : Int} :
    (∀ a ∈ TableAccess.lowcase c.toNat :: if StoredByte allow c then [.lowcaseHeader i] else [], a.InRange) ↔
      (StoredByte allow c → LowcaseIndex i) := by
  have hByte : TableAccess.InRange (.lowcase c.toNat) := by
    have hLt := c.toNat_lt
    exact ⟨by omega, by omega⟩
  rw [List.forall_mem_cons, and_iff_right hByte]
  by_cases hStored : StoredByte allow c
  · rw [if_pos hStored, List.forall_mem_singleton]
    exact ⟨fun h _ => h, fun h => h hStored⟩
  · rw [if_neg hStored]
    exact iff_of_true (List.forall_mem_nil _) fun h => absurd h hStored

theorem headerLineAccesses_inRange_iff (σ : HeaderLineScan) (c : UInt8) :
    (∀ a ∈ headerLineAccesses allow σ c, a.InRange) ↔
      (Stores (headerLineAccesses allow σ c) → σ.state = .start ∨ LowcaseIndex σ.i) := by
  obtain ⟨s, r, hash, i⟩ := σ
  cases s with
  | start =>
      refine iff_of_true ?_ fun _ => Or.inl rfl
      simp only [headerLineAccesses]
      by_cases hEnd : c = cr ∨ c = lf
      · rw [if_pos hEnd]
        exact List.forall_mem_nil _
      · rw [if_neg hEnd]
        exact inRange_name.mpr fun _ => by decide
  | name =>
      have hStores : Stores (headerLineAccesses allow ⟨.name, r, hash, i⟩ c) ↔ StoredByte allow c := stores_name
      refine inRange_name.trans ?_
      rw [hStores]
      simp
  | _ => exact iff_of_true (List.forall_mem_nil _) fun h => absurd h not_stores_nil

theorem storedByte_not_break : ∀ c : UInt8, c = cr ∨ c = lf → ¬ StoredByte true c ∧ ¬ StoredByte false c := by
  rintro c (rfl | rfl) <;> decide

theorem stores_iff {s : HeaderLineState} {r : RequestT} {hash : UInt32} {i : Int} (c : UInt8)
    (hs : s = .start ∨ s = .name) :
    Stores (headerLineAccesses allow ⟨s, r, hash, i⟩ c) ↔ StoredByte allow c := by
  rcases hs with rfl | rfl
  · by_cases hEnd : c = cr ∨ c = lf
    · have hNot := storedByte_not_break c hEnd
      rw [headerLineAccesses, if_pos hEnd]
      refine iff_of_false not_stores_nil ?_
      cases allow
      · exact hNot.2
      · exact hNot.1
    · rw [headerLineAccesses, if_neg hEnd]
      exact stores_name
  · exact stores_name

/-- A byte that is stored moves the index around the table; every other one leaves it. -/
theorem headerLineStep_index (σ : HeaderLineScan) (c : UInt8) :
    (headerLineStep mem allow p σ c).All
      (fun τ => (Stores (headerLineAccesses allow σ c) → LowcaseIndex τ.i) ∧
        (¬ Stores (headerLineAccesses allow σ c) → τ.i = σ.i))
      fun _ => True := by
  obtain ⟨s, r, hash, i⟩ := σ
  have hRing : LowcaseIndex ((i + 1) % 32) := ⟨by omega, by omega⟩
  have hFirst : LowcaseIndex 1 := by decide
  have hOther : ¬ lowcase c ≠ 0 → ¬ (c = underscore ∧ allow = true) → ¬ StoredByte allow c :=
    fun hLow hUnder h => h.elim hLow hUnder
  have hBreak : c = cr ∨ c = lf → ¬ StoredByte allow c := by
    intro hc
    cases allow
    · exact (storedByte_not_break c hc).2
    · exact (storedByte_not_break c hc).1
  unfold headerLineStep
  cases s with
  | start =>
      simp only [stores_iff c (Or.inl rfl)]
      refine Verdict.all_ite (fun hc => ⟨fun h => absurd h (hBreak (Or.inl hc)), fun _ => rfl⟩) fun _ => ?_
      refine Verdict.all_ite (fun _ => trivial) fun _ => ?_
      refine Verdict.all_ite (fun hLow => ⟨fun _ => hFirst, fun h => absurd (Or.inl hLow) h⟩) fun hLow => ?_
      refine Verdict.all_ite (fun hc => Verdict.all_ite (fun hAllow => ?_) fun hAllow => ?_) fun hc => ?_
      · exact ⟨fun _ => hFirst, fun h => absurd (Or.inr ⟨hc, hAllow⟩) h⟩
      · exact ⟨fun h => absurd h (hOther hLow fun hAnd => hAllow hAnd.2), fun _ => rfl⟩
      · refine Verdict.all_ite (fun _ => trivial) fun _ => ?_
        exact ⟨fun h => absurd h (hOther hLow fun hAnd => hc hAnd.1), fun _ => rfl⟩
  | name =>
      simp only [stores_iff c (Or.inr rfl)]
      refine Verdict.all_ite (fun hLow => ⟨fun _ => hRing, fun h => absurd (Or.inl hLow) h⟩) fun hLow => ?_
      refine Verdict.all_ite (fun hc => Verdict.all_ite (fun hAllow => ?_) fun hAllow => ?_) fun hc => ?_
      · exact ⟨fun _ => hRing, fun h => absurd (Or.inr ⟨hc, hAllow⟩) h⟩
      · exact ⟨fun h => absurd h (hOther hLow fun hAnd => hAllow hAnd.2), fun _ => rfl⟩
      · have hNot : ¬ StoredByte allow c := hOther hLow fun hAnd => hc hAnd.1
        repeat' refine Verdict.all_ite (fun _ => ?_) fun _ => ?_
        all_goals first
          | exact trivial
          | exact ⟨fun h => absurd h hNot, fun _ => rfl⟩
  | _ =>
      repeat' refine Verdict.all_ite (fun _ => ?_) fun _ => ?_
      all_goals first
        | exact trivial
        | exact ⟨fun h => absurd h not_stores_nil, fun _ => rfl⟩

/-- The index is the one of the request until a byte is stored, and one of the table from then on. -/
theorem headerTrace_index {xs : List UInt8} {σ : HeaderLineScan}
    (hRun : run (headerLineStep mem allow) p ⟨s, r, r.headerHash, r.lowcaseIndex⟩ xs = .pending σ) :
    (Stores (headerTrace mem allow p s r xs) → LowcaseIndex σ.i) ∧
      (¬ Stores (headerTrace mem allow p s r xs) → σ.i = r.lowcaseIndex) := by
  induction xs using List.reverseRecOn generalizing σ with
  | nil =>
      cases hRun
      exact ⟨fun h => absurd h not_stores_nil, fun _ => rfl⟩
  | append_singleton xs c ih =>
      obtain ⟨τ, hBefore, hStep⟩ := run_concat.mp hRun
      obtain ⟨hStored, hKept⟩ := ih hBefore
      have hMove := @headerLineStep_index mem allow (p + xs.length) τ c
      rw [hStep] at hMove
      have hTrace : Stores (headerTrace mem allow p s r (xs ++ [c])) ↔
          Stores (headerTrace mem allow p s r xs) ∨ Stores (headerLineAccesses allow τ c) := by
        rw [headerTrace, trace_append_of_pending _ hBefore, stores_append]
        simp only [trace, hStep, List.append_nil]
        rfl
      rw [hTrace]
      by_cases hHere : Stores (headerLineAccesses allow τ c)
      · exact ⟨fun _ => hMove.1 hHere, fun h => absurd (Or.inr hHere) h⟩
      · rw [hMove.2 hHere]
        exact ⟨fun h => hStored (h.resolve_right hHere), fun h => hKept (mt Or.inl h)⟩

end Header

theorem headerCall_inRange_iff (r : RequestT) (mem : Mem) (b : LtBuffer) (allow : Bool) :
    (∀ a ∈ (ParseCall.header mem b allow).accesses r, a.InRange) ↔ (ParseCall.header mem b allow).Meets r := by
  unfold ParseCall.accesses ParseCall.Meets
  cases hState : HeaderLineState.ofNat? r.state with
  | none => simp
  | some s =>
      simp only [Option.some.injEq, forall_eq']
      constructor
      · intro h
        rw [or_iff_not_imp_left]
        intro hIndex xs c ys σ hWord hRun hNone hStores
        have hHere := (headerLineAccesses_inRange_iff σ c).mp
          (fun a ha => h a (mem_trace.mpr ⟨xs, c, ys, σ, hWord, hRun, ha⟩)) hStores
        rw [(headerTrace_index hRun).2 hNone] at hHere
        exact hHere.resolve_right hIndex
      · intro h a ha
        obtain ⟨xs, c, ys, σ, hWord, hRun, ha⟩ := mem_trace.mp ha
        refine (headerLineAccesses_inRange_iff σ c).mpr (fun hStores => ?_) a ha
        by_cases hBefore : Stores (headerTrace mem allow b.pos s r xs)
        · exact Or.inr ((headerTrace_index hRun).1 hBefore)
        · rcases h with hIndex | hFront
          · exact Or.inr ((headerTrace_index hRun).2 hBefore ▸ hIndex)
          · exact Or.inl (hFront xs c ys σ hWord hRun hBefore hStores)

/-- The request line leaves the index alone. -/
theorem requestLineStep_index (mem : Mem) {p : Nat} {i : Int} {σ : RequestLineScan} (c : UInt8)
    (h : σ.2.lowcaseIndex = i) :
    (requestLineStep mem p σ c).All (fun τ => τ.2.lowcaseIndex = i) fun e =>
      (match e with | .done r => r | .fail _ r => r).lowcaseIndex = i := by
  obtain ⟨s, r⟩ := σ
  unfold requestLineStep requestLineStepWith
  cases s
  all_goals
    simp only [hostStep, hostEndStep, checkUriStep, uriStep, afterSlashInUriStep, expect]
    repeat' refine Verdict.all_ite (fun _ => ?_) fun _ => ?_
    all_goals exact h

theorem ngxHttpParseRequestLine_index (mem : Mem) (r : RequestT) (b : LtBuffer) :
    (ngxHttpParseRequestLine mem r b).2.1.lowcaseIndex = r.lowcaseIndex := by
  rw [ngxHttpParseRequestLine]
  cases RequestLineState.ofNat? r.state with
  | none => rfl
  | some s =>
      have hAll := run_all (M := requestLineStep mem) (p := b.pos) (w := b.unread mem)
        (fun q σ c h => requestLineStep_index mem (p := q) c h) (rfl : (s, r).2.lowcaseIndex = r.lowcaseIndex)
      simp only
      cases hRun : run (requestLineStep mem) b.pos (s, r) (b.unread mem) with
      | pending σ =>
          rw [hRun] at hAll
          exact hAll
      | halted x e =>
          rw [hRun] at hAll
          cases e with
          | done q =>
              simp only [requestLineDone_snd]
              exact hAll
          | fail res q => exact hAll

/-- An index of the table is left as one, both among the locals and in the request. -/
theorem headerLineStep_kept (mem : Mem) (allow : Bool) {p : Nat} {σ : HeaderLineScan} (c : UInt8)
    (h : LowcaseIndex σ.i ∧ LowcaseIndex σ.req.lowcaseIndex) :
    (headerLineStep mem allow p σ c).All (fun τ => LowcaseIndex τ.i ∧ LowcaseIndex τ.req.lowcaseIndex) fun e =>
      match e with
      | .done τ => LowcaseIndex τ.i
      | .headerDone r | .invalid r => LowcaseIndex r.lowcaseIndex := by
  obtain ⟨s, r, hash, i⟩ := σ
  obtain ⟨hIndex, hReq⟩ := h
  have hRing : LowcaseIndex ((i + 1) % 32) := ⟨by omega, by omega⟩
  have hFirst : LowcaseIndex 1 := by decide
  unfold headerLineStep
  cases s
  all_goals
    repeat' refine Verdict.all_ite (fun _ => ?_) fun _ => ?_
    all_goals first
      | exact hReq
      | exact hIndex
      | exact ⟨hIndex, hReq⟩
      | exact ⟨hRing, hReq⟩
      | exact ⟨hFirst, hReq⟩

theorem ngxHttpParseHeaderLine_index (mem : Mem) {r : RequestT} (b : LtBuffer) (allow : Bool)
    (h : LowcaseIndex r.lowcaseIndex) : LowcaseIndex (ngxHttpParseHeaderLine mem r b allow).2.1.lowcaseIndex := by
  rw [ngxHttpParseHeaderLine]
  cases HeaderLineState.ofNat? r.state with
  | none => exact h
  | some s =>
      have hAll := run_all (M := headerLineStep mem allow) (p := b.pos) (w := b.unread mem)
        (s := ⟨s, r, r.headerHash, r.lowcaseIndex⟩)
        (fun q σ c h => headerLineStep_kept mem allow (p := q) c h) ⟨h, h⟩
      simp only
      cases hRun : run (headerLineStep mem allow) b.pos ⟨s, r, r.headerHash, r.lowcaseIndex⟩ (b.unread mem) with
      | pending σ =>
          rw [hRun] at hAll
          exact hAll.1
      | halted x e =>
          rw [hRun] at hAll
          cases e <;> exact hAll

theorem ParseCall.inRange_iff (r : RequestT) (call : ParseCall) :
    (∀ a ∈ call.accesses r, a.InRange) ↔ call.Meets r := by
  cases call with
  | line mem b => exact lineCall_inRange_iff r mem b
  | header mem b allow => exact headerCall_inRange_iff r mem b allow

theorem ParseCall.result_index {r : RequestT} (call : ParseCall) (h : LowcaseIndex r.lowcaseIndex) :
    LowcaseIndex (call.result r).lowcaseIndex := by
  cases call with
  | line mem b =>
      have hSame := ngxHttpParseRequestLine_index mem r b
      exact hSame.symm ▸ h
  | header mem b allow => exact ngxHttpParseHeaderLine_index mem b allow h

/-- A request under way, and the accesses of the calls so far. -/
structure ParseRun where
  req : RequestT
  accesses : List TableAccess

def ParseRun.step (s : ParseRun) (call : ParseCall) : ParseRun :=
  ⟨call.result s.req, s.accesses ++ call.accesses s.req⟩

/-- The request as `http_create_request` leaves its block, before the first call. -/
def ParseRun.create (r : RequestT) : ParseRun := ⟨{ r with state := 0 }, []⟩

/-- In a run whose calls all meet the condition every access lies in its table, and the
condition is met exactly by the calls that stay in their tables. A block that begins
with an index of the table keeps one, so that the index is safe without a bound check.
-/
theorem parseRun_inRange {r : RequestT} {s : ParseRun}
    (h : Run.Reach ParseRun.step (fun s call => call.Meets s.req) (.create r) s) :
    (∀ a ∈ s.accesses, a.InRange) ∧ (∀ call : ParseCall, (∀ a ∈ call.accesses s.req, a.InRange) ↔ call.Meets s.req) ∧
      (LowcaseIndex r.lowcaseIndex → LowcaseIndex s.req.lowcaseIndex) := by
  refine ⟨?_, fun call => call.inRange_iff s.req, fun hIndex => ?_⟩
  · refine h.all (I := fun s => ∀ a ∈ s.accesses, a.InRange) (List.forall_mem_nil _) fun s call hOld hMeets => ?_
    exact List.forall_mem_append.mpr ⟨hOld, (call.inRange_iff s.req).mpr hMeets⟩
  · exact h.all (I := fun s => LowcaseIndex s.req.lowcaseIndex) hIndex fun s call hOld _ => call.result_index hOld

def pathCall (c : UInt8) : ParseCall :=
  .line (place (fun _ => 0) 1 (ofChars ['G', 'E', 'T', ' ', '/'] ++ [c, lf])) ⟨1, 1, 8, 8⟩

theorem parseRun_inRange_plain :
    (∀ a ∈ ((ParseRun.create {}).step (pathCall lowerA)).accesses, a.InRange) ∧
      LowcaseIndex ((ParseRun.create {}).step (pathCall lowerA)).req.lowcaseIndex := by
  obtain ⟨hAll, -, hIndex⟩ :=
    parseRun_inRange (r := {}) (.next (pathCall lowerA) .start ((ParseCall.inRange_iff _ _).mp (by decide)))
  exact ⟨hAll, hIndex (by decide)⟩

/-- A byte from 0x80 on in a path reads in front of `usual[]`. -/
theorem not_parseRun_inRange :
    ¬ ∀ (r : RequestT) (s : ParseRun), Run.Reach ParseRun.step (fun _ _ => True) (.create r) s →
      ∀ a ∈ s.accesses, a.InRange := by
  intro hClaim
  have hOut := hClaim {} _ (.next (pathCall 0x80) .start trivial) (.usual (-4)) (by decide)
  exact absurd hOut (by decide)

end Leactor
