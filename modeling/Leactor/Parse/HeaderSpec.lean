import Leactor.Parse.HeaderText

/-! What one call of `ngx_http_parse_header_line` from state 0 reads: lines it
skips, and then one header line or the blank line that ends the head. The texts
of `HeaderText` are exactly the ones that it finishes. -/
namespace Leactor

open Ascii Scan Memory

/-- Lines that the parser skips inside one call. There are none unless the
request has an upstream. -/
inductive Skipped (upstream : Nat) : List UInt8 → Prop where
  | nil : Skipped upstream []
  | line {y w : List UInt8} (hUpstream : upstream ≠ 0) (hLine : lf ∉ y) (hRest : Skipped upstream w) :
      Skipped upstream (replyMark ++ y ++ lf :: w)

theorem Skipped.append {upstream : Nat} {v w : List UInt8} (hv : Skipped upstream v)
    (hw : Skipped upstream w) : Skipped upstream (v ++ w) := by
  induction hv with
  | nil => exact hw
  | line hUpstream hLine _ ih =>
      rw [List.append_assoc, List.cons_append]
      exact .line hUpstream hLine ih

theorem Skipped.eq_nil {upstream : Nat} {w : List UInt8} (h : Skipped upstream w)
    (hUpstream : upstream = 0) : w = [] := by
  cases h with
  | nil => rfl
  | line hNot => exact absurd hUpstream hNot

/-- Every word without a terminator is the text behind some colon: spaces, a value that
neither begins nor ends with one, and spaces. -/
theorem exists_fieldText {y : List UInt8} (hPlain : ∀ c ∈ y, IsPlain c) :
    ∃ f : FieldText, f.bytes = y := by
  have hBefore : ∀ y : List UInt8, ∃ n z, y = List.replicate n sp ++ z ∧ z.head? ≠ some sp := by
    intro y
    induction y with
    | nil => exact ⟨0, [], rfl, by simp⟩
    | cons c y ih =>
        by_cases hc : c = sp
        · obtain ⟨n, z, rfl, hz⟩ := ih
          exact ⟨n + 1, z, by rw [hc, List.replicate_succ, List.cons_append], hz⟩
        · exact ⟨0, c :: y, rfl, by simpa using hc⟩
  obtain ⟨n, z, rfl, hz⟩ := hBefore y
  obtain ⟨v, m, rfl, hv⟩ := exists_trailing sp z
  have hEmpty : v = [] → m = 0 := by
    rintro rfl
    cases m with
    | zero => rfl
    | succ m => exact absurd (by simp [List.replicate_succ]) hz
  have hHead : v.head? ≠ some sp := by
    intro h
    obtain ⟨w, rfl⟩ : ∃ w, v = sp :: w := by
      cases v with
      | nil => cases h
      | cons c w => exact ⟨w, by simpa using h⟩
    exact hz rfl
  refine ⟨⟨n, v, m, fun c hc => hPlain c ?_, hHead, hv, hEmpty⟩, List.append_assoc _ _ _⟩
  simp [hc]

/-- Every nonempty word without a terminator, followed by its terminator, is a
header line. -/
theorem exists_headerText {x : List UInt8} (n : Nat) (hNe : x ≠ []) (hPlain : ∀ c ∈ x, IsPlain c) :
    ∃ l : HeaderText, l.bytes = x ++ List.replicate n cr ++ [lf] ∧ l.name <+: x := by
  obtain ⟨c, x, rfl⟩ := List.exists_cons_of_ne_nil hNe
  rw [List.forall_mem_cons] at hPlain
  have hSplit : ∀ x : List UInt8, ∃ v w, x = v ++ w ∧ colon ∉ v ∧ (w = [] ∨ ∃ y, w = colon :: y) := by
    intro x
    induction x with
    | nil => exact ⟨[], [], rfl, by simp, Or.inl rfl⟩
    | cons d x ih =>
        by_cases hd : d = colon
        · exact ⟨[], d :: x, rfl, by simp, Or.inr ⟨x, by rw [hd]⟩⟩
        · obtain ⟨v, w, rfl, hv, hw⟩ := ih
          exact ⟨d :: v, w, rfl, by simp [hv, Ne.symm hd], hw⟩
  obtain ⟨v, w, rfl, hv, hw⟩ := hSplit x
  have hRest : ∀ d ∈ v, IsPlain d ∧ d ≠ colon := fun d hd =>
    ⟨hPlain.2 d (List.mem_append_left w hd), fun h => hv (h ▸ hd)⟩
  rcases hw with rfl | ⟨y, rfl⟩
  · refine ⟨⟨c, v, none, n, hPlain.1, hRest⟩, ?_, ?_⟩
    · simp [HeaderText.bytes, HeaderText.name, HeaderText.fieldBytes]
    · simp [HeaderText.name]
  · obtain ⟨f, hf⟩ := exists_fieldText (y := y) fun d hd => hPlain.2 d (by simp [hd])
    refine ⟨⟨c, v, some f, n, hPlain.1, hRest⟩, ?_, ⟨colon :: y, rfl⟩⟩
    simp [HeaderText.bytes, HeaderText.name, HeaderText.fieldBytes, hf]

/-- A line that does not start a reply, less its terminator. -/
def OpenLine (upstream : Nat) (w : List UInt8) : Prop :=
  w ≠ [] ∧ (∀ c ∈ w, IsPlain c) ∧ (upstream ≠ 0 → ¬ replyMark <+: w)

theorem OpenLine.single (upstream : Nat) {c : UInt8} (h : IsPlain c) : OpenLine upstream [c] := by
  refine ⟨by simp, by simpa using h, fun _ hPrefix => ?_⟩
  have := hPrefix.length_le
  simp [replyMark, ofChars] at this

theorem OpenLine.snoc {upstream : Nat} {w : List UInt8} {c : UInt8} (hw : OpenLine upstream w)
    (hc : IsPlain c) (hReply : upstream ≠ 0 → w ++ [c] ≠ replyMark) : OpenLine upstream (w ++ [c]) := by
  obtain ⟨-, hPlain, hOpen⟩ := hw
  refine ⟨by simp, ?_, fun hUpstream hPrefix => ?_⟩
  · intro d hd
    rcases List.mem_append.mp hd with h | h
    · exact hPlain d h
    · rwa [List.mem_singleton.mp h]
  · rcases List.prefix_concat_iff.mp hPrefix with h | h
    · exact hReply hUpstream h.symm
    · exact hOpen hUpstream h

/-- Behind a colon a line cannot become the start of a reply. -/
theorem OpenLine.snoc_colon {upstream : Nat} {w : List UInt8} {c : UInt8} (hw : OpenLine upstream w)
    (hColon : colon ∈ w) (hc : IsPlain c) : OpenLine upstream (w ++ [c]) := by
  refine hw.snoc hc fun _ h => ?_
  have hMem : colon ∈ replyMark := by
    rw [← h]
    exact List.mem_append_left _ hColon
  revert hMem
  decide

/-- What the bytes read so far look like in each state, for a line that
begins at `a` behind skipped lines. -/
def LineShape (mem : Mem) (upstream a x : Nat) (σ : HeaderLineScan) : Prop :=
  match σ.state with
  | .start => a = x
  | .name => σ.req.headerNameStart = a ∧ OpenLine upstream (slice mem a x)
  | .spaceBeforeValue | .value | .spaceAfterValue =>
      colon ∈ slice mem a x ∧ OpenLine upstream (slice mem a x)
  | .almostDone => ∃ w n, OpenLine upstream w ∧ slice mem a x = w ++ List.replicate n cr
  | .headerAlmostDone => slice mem a x = [cr]
  | .ignoreLine => upstream ≠ 0 ∧ ∃ y, slice mem a x = replyMark ++ y ∧ lf ∉ y

/-- The invariant of a scan that began at `p` for the request `r`. -/
def LineTrace (mem : Mem) (r : RequestT) (p x : Nat) (σ : HeaderLineScan) : Prop :=
  σ.req.state = r.state ∧ σ.req.upstream = r.upstream ∧
    ∃ a, p ≤ a ∧ a ≤ x ∧ Skipped r.upstream (slice mem p a) ∧ LineShape mem r.upstream a x σ

/-- What a scan has read when it halts on the byte at `x`. -/
def HaltTrace (mem : Mem) (r : RequestT) (p x : Nat) : HeaderExit → Prop
  | .done _ => ∃ a w n, p ≤ a ∧ a ≤ x + 1 ∧ Skipped r.upstream (slice mem p a) ∧
      OpenLine r.upstream w ∧ slice mem a (x + 1) = w ++ List.replicate n cr ++ [lf]
  | .headerDone _ => ∃ a blank, p ≤ a ∧ a ≤ x + 1 ∧ Skipped r.upstream (slice mem p a) ∧
      slice mem a (x + 1) = lineBreak blank
  | .invalid r' => r'.state = r.state ∧ r'.upstream = r.upstream

theorem plain_of_ne {c : UInt8} (hNul : c ≠ nul) (hCr : c ≠ cr) (hLf : c ≠ lf) : IsPlain c :=
  ⟨hNul, hCr, hLf⟩

theorem lineTrace_step {mem : Mem} {r : RequestT} {p x : Nat} {σ : HeaderLineScan}
    (h : LineTrace mem r p x σ) :
    (headerLineStep mem true x σ (mem x)).All (LineTrace mem r p (x + 1)) (HaltTrace mem r p x) := by
  obtain ⟨hState, hUpstream, a, hpa, hax, hSkip, hShape⟩ := h
  have hSnoc : slice mem a (x + 1) = slice mem a x ++ [mem x] := slice_succ hax
  obtain ⟨state, req, hash, i⟩ := σ
  simp only at hState hUpstream
  -- the states inside a line end it, give up, or take one more byte
  have hEnd : ∀ τ, OpenLine r.upstream (slice mem a x) → mem x = lf →
      (Verdict.halt (.done τ)).All (LineTrace mem r p (x + 1)) (HaltTrace mem r p x) := by
    intro τ hOpen hLf
    exact ⟨a, slice mem a x, 0, hpa, by omega, hSkip, hOpen, by simp [hSnoc, hLf]⟩
  have hReturn : OpenLine r.upstream (slice mem a x) → mem x = cr →
      ∃ w n, OpenLine r.upstream w ∧ slice mem a (x + 1) = w ++ List.replicate n cr := by
    intro hOpen hCr
    exact ⟨slice mem a x, 1, hOpen, by simp [hSnoc, hCr]⟩
  have hInside : colon ∈ slice mem a x → OpenLine r.upstream (slice mem a x) →
      IsPlain (mem x) → colon ∈ slice mem a (x + 1) ∧ OpenLine r.upstream (slice mem a (x + 1)) := by
    intro hColon hOpen hPlain
    rw [hSnoc]
    exact ⟨List.mem_append_left _ hColon, hOpen.snoc_colon hColon hPlain⟩
  cases state with
  | start =>
      obtain rfl : a = x := hShape
      simp only [slice_self, List.nil_append] at hSnoc
      have hOpen : IsPlain (mem a) → OpenLine r.upstream (slice mem a (a + 1)) := by
        intro hPlain
        rw [hSnoc]
        exact .single _ hPlain
      simp only [headerLineStep, if_true]
      split_ifs with hCr hLf hTable hUnderscore hNul
      · exact ⟨hState, hUpstream, a, hpa, by omega, hSkip, by simp [LineShape, hCr]⟩
      · exact ⟨a, false, hpa, by omega, hSkip, by simp [hLf, lineBreak]⟩
      · exact ⟨hState, hUpstream, a, hpa, by omega, hSkip, rfl,
          hOpen (IsNameByte.plain (Or.inl hTable))⟩
      · exact ⟨hState, hUpstream, a, hpa, by omega, hSkip, rfl,
          hOpen (IsNameByte.plain (Or.inr hUnderscore))⟩
      · exact ⟨hState, hUpstream⟩
      · exact ⟨hState, hUpstream, a, hpa, by omega, hSkip, rfl, hOpen (plain_of_ne hNul hCr hLf)⟩
  | name =>
      obtain ⟨rfl, hOpen⟩ := hShape
      simp only at hOpen
      have hMore : IsPlain (mem x) → mem x ≠ slash ∨ ¬ (req.upstream ≠ 0 ∧
          (x : Int) - (req.headerNameStart : Int) = 4 ∧
            ngxStrCmp mem req.headerNameStart ['H', 'T', 'T', 'P']) →
          OpenLine r.upstream (slice mem req.headerNameStart (x + 1)) := by
        intro hPlain hNot
        rw [hSnoc]
        refine hOpen.snoc hPlain fun hUp hReply => ?_
        have hWord : slice mem req.headerNameStart x = ofChars ['H', 'T', 'T', 'P'] ∧ [mem x] = [slash] :=
          List.append_inj' hReply rfl
        have hLength := congrArg List.length hWord.1
        rw [length_slice] at hLength
        have hx : x = req.headerNameStart + 4 := by
          simp only [ofChars, List.length_map, List.length_cons, List.length_nil] at hLength
          omega
        rcases hNot with hNot | hNot
        · exact hNot (List.singleton_inj.mp hWord.2)
        · refine hNot ⟨by rwa [hUpstream], by omega, ?_⟩
          rw [hx] at hWord
          simp [ngxStrCmp, hWord.1]
      simp only [headerLineStep, if_true]
      split_ifs with hTable hUnderscore hColon hCr hLf hReply hNul
      · exact ⟨hState, hUpstream, _, hpa, by omega, hSkip, rfl,
          hMore (IsNameByte.plain (Or.inl hTable)) (Or.inl (IsNameByte.ne (Or.inl hTable)).2.1)⟩
      · exact ⟨hState, hUpstream, _, hpa, by omega, hSkip, rfl,
          hMore (IsNameByte.plain (Or.inr hUnderscore))
            (Or.inl (IsNameByte.ne (Or.inr hUnderscore)).2.1)⟩
      · have hPlain : IsPlain (mem x) := by
          rw [hColon]
          decide
        refine ⟨hState, hUpstream, _, hpa, by omega, hSkip, ?_, hMore hPlain (Or.inl ?_)⟩
        · rw [hSnoc, hColon]
          simp
        · rw [hColon]
          decide
      · exact ⟨hState, hUpstream, _, hpa, by omega, hSkip, hReturn hOpen hCr⟩
      · exact hEnd _ hOpen hLf
      · obtain ⟨hSlash, hUp, hDistance, hHttp⟩ := hReply
        refine ⟨hState, hUpstream, _, hpa, by omega, hSkip, by rwa [← hUpstream], [], ?_, by simp⟩
        have hx : x = req.headerNameStart + 4 := by omega
        have hWord : slice mem req.headerNameStart (req.headerNameStart + 4) = ofChars ['H', 'T', 'T', 'P'] := by
          simpa [ngxStrCmp] using hHttp
        rw [hSnoc, hSlash, hx, hWord]
        rfl
      · exact ⟨hState, hUpstream⟩
      · refine ⟨hState, hUpstream, _, hpa, by omega, hSkip, rfl,
          hMore (plain_of_ne hNul hCr hLf) ?_⟩
        by_cases hSlash : mem x = slash
        · exact Or.inr fun h => hReply ⟨hSlash, h⟩
        · exact Or.inl hSlash
  | spaceBeforeValue =>
      obtain ⟨hColon, hOpen⟩ := hShape
      simp only [headerLineStep]
      split_ifs with hSp hCr hLf hNul
      · exact ⟨hState, hUpstream, a, hpa, by omega, hSkip, hInside hColon hOpen (by rw [hSp]; decide)⟩
      · exact ⟨hState, hUpstream, a, hpa, by omega, hSkip, hReturn hOpen hCr⟩
      · exact hEnd _ hOpen hLf
      · exact ⟨hState, hUpstream⟩
      · exact ⟨hState, hUpstream, a, hpa, by omega, hSkip,
          hInside hColon hOpen (plain_of_ne hNul hCr hLf)⟩
  | value =>
      obtain ⟨hColon, hOpen⟩ := hShape
      simp only [headerLineStep]
      split_ifs with hSp hCr hLf hNul
      · exact ⟨hState, hUpstream, a, hpa, by omega, hSkip, hInside hColon hOpen (by rw [hSp]; decide)⟩
      · exact ⟨hState, hUpstream, a, hpa, by omega, hSkip, hReturn hOpen hCr⟩
      · exact hEnd _ hOpen hLf
      · exact ⟨hState, hUpstream⟩
      · exact ⟨hState, hUpstream, a, hpa, by omega, hSkip,
          hInside hColon hOpen (plain_of_ne hNul hCr hLf)⟩
  | spaceAfterValue =>
      obtain ⟨hColon, hOpen⟩ := hShape
      simp only [headerLineStep]
      split_ifs with hSp hCr hLf hNul
      · exact ⟨hState, hUpstream, a, hpa, by omega, hSkip, hInside hColon hOpen (by rw [hSp]; decide)⟩
      · exact ⟨hState, hUpstream, a, hpa, by omega, hSkip, hReturn hOpen hCr⟩
      · exact hEnd _ hOpen hLf
      · exact ⟨hState, hUpstream⟩
      · exact ⟨hState, hUpstream, a, hpa, by omega, hSkip,
          hInside hColon hOpen (plain_of_ne hNul hCr hLf)⟩
  | ignoreLine =>
      obtain ⟨hUp, y, hy, hNoLf⟩ := hShape
      simp only [headerLineStep]
      split_ifs with hLf
      · refine ⟨hState, hUpstream, x + 1, by omega, by omega, ?_, rfl⟩
        rw [← slice_append hpa (by omega : a ≤ x + 1), hSnoc, hy, hLf]
        exact hSkip.append (.line hUp hNoLf .nil)
      · refine ⟨hState, hUpstream, a, hpa, by omega, hSkip, hUp, y ++ [mem x], ?_, ?_⟩
        · rw [hSnoc, hy, List.append_assoc]
        · simp [hNoLf, Ne.symm hLf]
  | almostDone =>
      obtain ⟨w, n, hOpen, hw⟩ := hShape
      simp only [headerLineStep]
      split_ifs with hLf hCr
      · exact ⟨a, w, n, hpa, by omega, hSkip, hOpen, by rw [hSnoc, hw, hLf]⟩
      · refine ⟨hState, hUpstream, a, hpa, by omega, hSkip, w, n + 1, hOpen, ?_⟩
        rw [hSnoc, hw, hCr, List.append_assoc, List.replicate_succ']
      · exact ⟨hState, hUpstream⟩
  | headerAlmostDone =>
      simp only [headerLineStep]
      split_ifs with hLf
      · exact ⟨a, true, hpa, by omega, hSkip, by rw [hSnoc, show slice mem a x = [cr] from hShape, hLf]; rfl⟩
      · exact ⟨hState, hUpstream⟩

/-- Skipped lines leave the parser in its first state. They change nothing but what the
parser sets anew at the next line. -/
theorem run_skipped (mem : Mem) {p : Nat} {σ : HeaderLineScan} {w : List UInt8}
    (hState : σ.state = .start) (hSkip : Skipped σ.req.upstream w)
    (hMem : slice mem p (p + w.length) = w) :
    ∃ τ, run (headerLineStep mem true) p σ w = .pending τ ∧ τ.state = .start ∧
      τ.req.forgetHeader = σ.req.forgetHeader := by
  generalize hUp : σ.req.upstream = upstream at hSkip
  induction hSkip generalizing p σ with
  | nil => exact ⟨σ, rfl, hState, rfl⟩
  | @line y w hNe hLine hRest ih =>
      have hMark : replyMark = upperH :: [upperT, upperT, upperP, slash] := rfl
      have hStart := headerLineStep_start mem (p := p) (c := upperH) hState (by decide)
      have hWord : ngxStrCmp mem p ['H', 'T', 'T', 'P'] := by
        have hFour : slice mem p (p + (ofChars ['H', 'T', 'T', 'P']).length) =
            ofChars ['H', 'T', 'T', 'P'] := by
          have hWhole : slice mem p (p + (replyMark ++ y ++ lf :: w).length) =
              ofChars ['H', 'T', 'T', 'P'] ++ (slash :: y ++ lf :: w) := hMem
          exact (slice_eq_append hWhole).1
        simpa [ngxStrCmp, ofChars] using hFour
      -- the three name bytes behind the first one
      have hName : ∀ (q : Nat) (τ : HeaderLineScan) (c : UInt8), IsNameByte c → τ.state = .name →
          headerLineStep mem true q τ c = .next (nameStep τ c) := by
        intro q τ c hc hτ
        exact headerLineStep_name mem hτ hc.plain hc.ne.1 fun h => hc.ne.2.1 h.1
      have hFrom := foldl_nameStep_req [upperH, upperT, upperT, upperP] (openName p upperH σ)
      obtain ⟨hKeep, invalid, low, hReq⟩ := hFrom
      have hFour : run (headerLineStep mem true) p σ [upperH, upperT, upperT, upperP] =
          .pending ([upperH, upperT, upperT, upperP].foldl nameStep (openName p upperH σ)) := by
        have hOpen : (openName p upperH σ).state = .name := rfl
        rw [run_cons_next _ hStart,
          run_cons_next _ (hName _ _ upperT (by decide) (by simp [hOpen])),
          run_cons_next _ (hName _ _ upperT (by decide) (by simp [hOpen])),
          run_cons_next _ (hName _ _ upperP (by decide) (by simp [hOpen]))]
        rfl
      generalize [upperH, upperT, upperT, upperP].foldl nameStep (openName p upperH σ) = τ
        at hFour hKeep hReq
      have hSlash : headerLineStep mem true (p + 4) τ slash = .next { τ with state := .ignoreLine } := by
        obtain ⟨state, req, hash, i⟩ := τ
        simp only at hKeep hReq
        subst hKeep hReq
        have hUpstream : σ.req.upstream ≠ 0 := by rwa [hUp]
        simp [headerLineStep, openName, hWord, hUpstream, show lowcase slash = 0 by decide, slash,
          underscore, colon, cr, lf]
      have hIgnored : run (headerLineStep mem true) (p + 5) { τ with state := .ignoreLine } y =
          .pending { τ with state := .ignoreLine } := by
        apply run_const
        intro q c hc
        have hNe : c ≠ lf := fun h => hLine (h ▸ hc)
        simp [headerLineStep, hNe]
      have hLf : headerLineStep mem true (p + 5 + y.length) { τ with state := .ignoreLine } lf =
          .next { τ with state := .start } := by
        simp [headerLineStep]
      have hTail : slice mem (p + 5 + y.length + 1) (p + 5 + y.length + 1 + w.length) = w := by
        have hWhole : slice mem p (p + (replyMark ++ y ++ lf :: w).length) = (replyMark ++ y ++ [lf]) ++ w := by
          rw [hMem]
          simp
        have hSplit := (slice_eq_append hWhole).2
        have hLength : (replyMark ++ y ++ [lf]).length = 5 + y.length + 1 := by
          simp [replyMark, ofChars]
          omega
        have hTotal : (replyMark ++ y ++ lf :: w).length = 5 + y.length + 1 + w.length := by
          simp [replyMark, ofChars]
          omega
        rw [hLength, hTotal] at hSplit
        simpa [Nat.add_assoc] using hSplit
      obtain ⟨τ', hRun, hStart', hFrame⟩ := ih (σ := { τ with state := .start }) rfl hTail
        (by rw [hReq]; exact hUp)
      refine ⟨τ', ?_, hStart', ?_⟩
      · rw [hMark]
        change run _ p σ ([upperH, upperT, upperT, upperP] ++ (slash :: (y ++ lf :: w))) = _
        rw [run_append_of_pending _ hFour]
        change run _ (p + 4) _ _ = _
        rw [run_cons_next _ hSlash, run_append_of_pending _ hIgnored, run_cons_next _ hLf, hRun]
      · rw [hFrame, hReq]
        rfl

/-- What the parser has stored after the line `l` at `p`. -/
structure ReadsLine (l : HeaderText) (p : Nat) (r r' : RequestT) : Prop where
  frame : r'.forgetHeader = r.forgetHeader
  state : r'.state = 0
  nameStart : r'.headerNameStart = p
  nameEnd : r'.headerNameEnd = p + l.name.length
  valueStart : r'.headerStart = p + l.valueOffset
  valueEnd : r'.headerEnd = p + l.valueOffset + l.value.length
  invalid : r'.invalidHeader = 0 ↔ l.Valid
  hash : l.Valid → r'.headerHash = nameHash l.name

def HeaderLineScan.finished (σ : HeaderLineScan) : RequestT :=
  { σ.req with
    state := 0, headerHash := σ.hash, lowcaseIndex := σ.i,
    headerLength := wrap32 (ptrDiff σ.req.headerEnd σ.req.headerNameStart + 2) }

theorem ngxHttpParseHeaderLine_of_done {mem : Mem} {r : RequestT} {b : LtBuffer} {q : Nat}
    {σ : HeaderLineScan} (hState : r.state = 0)
    (hRun : run (headerLineStep mem true) b.pos ⟨.start, r, r.headerHash, r.lowcaseIndex⟩
      (b.unread mem) = .halted q (.done σ)) :
    ngxHttpParseHeaderLine mem r b true = (.lok, σ.finished, { b with pos := q + 1 }) := by
  rw [ngxHttpParseHeaderLine, hState, HeaderLineState.ofNat?_zero]
  simp only [hRun]
  rfl

theorem ngxHttpParseHeaderLine_of_headerDone {mem : Mem} {r r' : RequestT} {b : LtBuffer} {q : Nat}
    (hState : r.state = 0)
    (hRun : run (headerLineStep mem true) b.pos ⟨.start, r, r.headerHash, r.lowcaseIndex⟩
      (b.unread mem) = .halted q (.headerDone r')) :
    ngxHttpParseHeaderLine mem r b true =
      (.ngxHttpParseHeaderDone, { r' with state := 0 }, { b with pos := q + 1 }) := by
  rw [ngxHttpParseHeaderLine, hState, HeaderLineState.ofNat?_zero]
  simp only [hRun]

/-- A header line, behind lines that are skipped, is finished with `LOK`. The position
is behind its line feed then. -/
theorem ngxHttpParseHeaderLine_line {mem : Mem} {r : RequestT} {b : LtBuffer} {skip rest : List UInt8}
    (l : HeaderText) (hState : r.state = 0) (hUnread : b.unread mem = skip ++ (l.bytes ++ rest))
    (hSkip : Skipped r.upstream skip) (hReply : r.upstream ≠ 0 → ¬ l.StartsReply) :
    ∃ r', ngxHttpParseHeaderLine mem r b true =
        (.lok, r', { b with pos := b.pos + skip.length + l.bytes.length }) ∧
      ReadsLine l (b.pos + skip.length) r r' := by
  obtain ⟨hSkipMem, hRest⟩ := slice_eq_append hUnread
  have hName : slice mem (b.pos + skip.length) (b.pos + skip.length + l.name.length) = l.name := by
    rw [HeaderText.bytes, List.append_assoc, List.append_assoc, List.append_assoc] at hRest
    exact (slice_eq_append hRest).1
  obtain ⟨τ, hSkipped, hStart, hFrame⟩ := run_skipped mem (p := b.pos)
    (σ := ⟨.start, r, r.headerHash, r.lowcaseIndex⟩) rfl hSkip hSkipMem
  have hUpstream : τ.req.upstream = r.upstream := by
    have hField := congrArg RequestT.upstream hFrame
    exact hField
  obtain ⟨s, hRun⟩ := run_headerText mem (p := b.pos + skip.length) (σ := τ) l hStart hName
    (by rwa [hUpstream])
  have hWhole := run_append_of_pending (l.bytes ++ rest) hSkipped
  rw [run_append_of_halted rest hRun, ← hUnread] at hWhole
  have hPositive := l.length_bytes_pos
  obtain ⟨-, invalid, low, hReq⟩ := foldl_nameStep_req l.name (openName (b.pos + skip.length) l.first τ)
  have hInvalid := foldl_nameStep_invalid l.name (openName (b.pos + skip.length) l.first τ)
  have hParse := ngxHttpParseHeaderLine_of_done hState hWhole
  rw [show b.pos + skip.length + l.bytes.length - 1 + 1 = b.pos + skip.length + l.bytes.length
    by omega] at hParse
  refine ⟨_, hParse, ?_, rfl, ?_, rfl, rfl, rfl, ?_, ?_⟩
  · refine Eq.trans ?_ hFrame
    simp only [HeaderLineScan.finished, HeaderText.scanName, HeaderText.mark,
      RequestT.forgetHeader, hReq]
    rfl
  · simp only [HeaderLineScan.finished, HeaderText.scanName, HeaderText.mark, hReq]
    rfl
  · refine Iff.trans hInvalid ?_
    simp [openName, HeaderText.Valid]
  · intro hValid
    have hFirst : IsNameByte l.first := hValid _ List.mem_cons_self
    simp only [HeaderLineScan.finished, HeaderText.scanName]
    rw [foldl_nameStep_hash _ hValid]
    simp [openName, hFirst, nameHash]

/-- The blank line, behind lines that are skipped, ends the head. The state is the first
one again, as a request is parsed next. -/
theorem ngxHttpParseHeaderLine_blank {mem : Mem} {r : RequestT} {b : LtBuffer}
    {skip rest : List UInt8} (blank : Bool) (hState : r.state = 0)
    (hUnread : b.unread mem = skip ++ (lineBreak blank ++ rest)) (hSkip : Skipped r.upstream skip) :
    ∃ r', ngxHttpParseHeaderLine mem r b true =
        (.ngxHttpParseHeaderDone, r',
          { b with pos := b.pos + skip.length + (lineBreak blank).length }) ∧
      r'.forgetHeader = r.forgetHeader ∧ r'.state = 0 := by
  obtain ⟨hSkipMem, -⟩ := slice_eq_append hUnread
  obtain ⟨τ, hSkipped, hStart, hFrame⟩ := run_skipped mem (p := b.pos)
    (σ := ⟨.start, r, r.headerHash, r.lowcaseIndex⟩) rfl hSkip hSkipMem
  obtain ⟨state, req, hash, i⟩ := τ
  simp only at hStart hFrame
  subst hStart
  have hWhole := run_append_of_pending (lineBreak blank ++ rest) hSkipped
  rw [← hUnread] at hWhole
  cases blank with
  | false =>
      have hLf : headerLineStep mem true (b.pos + skip.length) ⟨.start, req, hash, i⟩ lf =
          .halt (.headerDone
            { req with
              headerNameStart := b.pos + skip.length, invalidHeader := 0
              headerEnd := b.pos + skip.length }) := by
        simp [headerLineStep, lf, cr]
      rw [show lineBreak false = [lf] from rfl, List.singleton_append, run_cons_halt _ hLf] at hWhole
      exact ⟨_, ngxHttpParseHeaderLine_of_headerDone hState hWhole, hFrame, rfl⟩
  | true =>
      have hCr : headerLineStep mem true (b.pos + skip.length) ⟨.start, req, hash, i⟩ cr =
          .next ⟨.headerAlmostDone,
            { req with
              headerNameStart := b.pos + skip.length, invalidHeader := 0
              headerEnd := b.pos + skip.length }, hash, i⟩ := by
        simp [headerLineStep]
      have hLf : ∀ req, headerLineStep mem true (b.pos + skip.length + 1)
          ⟨.headerAlmostDone, req, hash, i⟩ lf = .halt (.headerDone req) := by
        intro req
        simp [headerLineStep]
      rw [show lineBreak true = [cr, lf] from rfl, List.cons_append, List.singleton_append,
        run_cons_next _ hCr, run_cons_halt _ (hLf _)] at hWhole
      exact ⟨_, ngxHttpParseHeaderLine_of_headerDone hState hWhole, hFrame, rfl⟩

/-- A call that finds no whole line: it gives up and moves nothing, or it
takes all bytes there are. -/
inductive Stalls (r : RequestT) (b : LtBuffer) : Res × RequestT × LtBuffer → Prop where
  | invalid {r' : RequestT} (hState : r'.state = 0) (hUpstream : r'.upstream = r.upstream) :
      Stalls r b (.ngxHttpParseInvalidHeader, r', b)
  | again {r' : RequestT} (s : HeaderLineState) (hState : r'.state = s.toNat) :
      Stalls r b (.lagain, r', { b with pos := max b.pos b.last })

/-- From state 0 the parser finishes a header line or the blank line, or it stalls. -/
theorem ngxHttpParseHeaderLine_cases (mem : Mem) {r : RequestT} {b : LtBuffer} (hState : r.state = 0) :
    (∃ l skip rest, b.unread mem = skip ++ (HeaderText.bytes l ++ rest) ∧ Skipped r.upstream skip ∧
      (r.upstream ≠ 0 → ¬ l.StartsReply)) ∨
    (∃ blank skip rest, b.unread mem = skip ++ (lineBreak blank ++ rest) ∧ Skipped r.upstream skip) ∨
    Stalls r b (ngxHttpParseHeaderLine mem r b true) := by
  by_cases hEmpty : b.last < b.pos
  · refine Or.inr (Or.inr ?_)
    have hUnread : b.unread mem = [] := slice_of_le (by omega)
    rw [ngxHttpParseHeaderLine, hState, HeaderLineState.ofNat?_zero]
    simp only [hUnread, run_nil]
    exact .again .start rfl
  have hInit : LineTrace mem r b.pos b.pos ⟨.start, r, r.headerHash, r.lowcaseIndex⟩ :=
    ⟨rfl, rfl, b.pos, Nat.le_refl _, Nat.le_refl _, by rw [slice_self]; exact .nil, rfl⟩
  have hRun := run_slice_all (M := headerLineStep mem true) (q := b.last) (Q := HaltTrace mem r b.pos)
    (fun x t _ _ _ h => lineTrace_step h) (by omega) hInit
  -- the bytes up to a halting position, and the bytes behind it
  have hCut : ∀ x a, b.pos ≤ a → a ≤ x + 1 → x < b.last → b.unread mem =
      slice mem b.pos a ++ (slice mem a (x + 1) ++ slice mem (x + 1) b.last) := by
    intro x a hpa hax hx
    rw [slice_append hax (by omega), slice_append hpa (by omega)]
    rfl
  rw [ngxHttpParseHeaderLine, hState, HeaderLineState.ofNat?_zero]
  simp only
  rw [LtBuffer.unread] at hCut ⊢
  revert hRun
  cases run (headerLineStep mem true) b.pos ⟨.start, r, r.headerHash, r.lowcaseIndex⟩
      (slice mem b.pos b.last) with
  | pending σ => exact fun _ => Or.inr (Or.inr (.again σ.state rfl))
  | halted x result =>
      rintro ⟨-, hx, hHalt⟩
      cases result with
      | done σ =>
          obtain ⟨a, w, n, hpa, hax, hSkip, ⟨hNe, hPlain, hOpen⟩, hLine⟩ := hHalt
          obtain ⟨l, hBytes, hName⟩ := exists_headerText n hNe hPlain
          refine Or.inl ⟨l, _, slice mem (x + 1) b.last, ?_, hSkip, ?_⟩
          · rw [hBytes, ← hLine]
            exact hCut x a hpa hax hx
          · exact fun hUpstream hReply => hOpen hUpstream (List.IsPrefix.trans hReply hName)
      | headerDone r' =>
          obtain ⟨a, blank, hpa, hax, hSkip, hLine⟩ := hHalt
          refine Or.inr (Or.inl ⟨blank, _, slice mem (x + 1) b.last, ?_, hSkip⟩)
          rw [← hLine]
          exact hCut x a hpa hax hx
      | invalid r' =>
          obtain ⟨hKeep, hUpstream⟩ := hHalt
          exact Or.inr (Or.inr (.invalid (hKeep.trans hState) hUpstream))

/-- At the end of the bytes, in any state, the parser only asks for more. -/
theorem ngxHttpParseHeaderLine_empty {mem : Mem} {r : RequestT} {b : LtBuffer} (s : HeaderLineState)
    (hState : r.state = s.toNat) (hEnd : b.last ≤ b.pos) :
    Stalls r b (ngxHttpParseHeaderLine mem r b true) := by
  have hUnread : b.unread mem = [] := slice_of_le hEnd
  rw [ngxHttpParseHeaderLine, hState, HeaderLineState.ofNat?_toNat]
  simp only [hUnread, run_nil]
  exact .again s rfl

end Leactor
