import Leactor.Parse.HeaderLine

/-! The texts that `ngx_http_parse_header_line` finishes, and its run over one
of them. The header loop calls the parser with `allow_underscores` set. -/
namespace Leactor

open Ascii Scan Memory

/-- What stands behind the colon of a header line: spaces, the value, and
spaces again. -/
structure FieldText where
  before : Nat
  value : List UInt8
  after : Nat
  plain : ∀ c ∈ value, IsPlain c
  head_ne : value.head? ≠ some sp
  last_ne : value.getLast? ≠ some sp
  after_eq : value = [] → after = 0

/-- One header line. The first byte belongs to the name whatever it is; a line
without a further colon has no field. -/
structure HeaderText where
  first : UInt8
  rest : List UInt8
  field : Option FieldText
  crs : Nat
  first_plain : IsPlain first
  rest_plain : ∀ c ∈ rest, IsPlain c ∧ c ≠ colon

def FieldText.bytes (f : FieldText) : List UInt8 :=
  List.replicate f.before sp ++ f.value ++ List.replicate f.after sp

namespace HeaderText

def name (l : HeaderText) : List UInt8 := l.first :: l.rest

def value (l : HeaderText) : List UInt8 :=
  match l.field with
  | none => []
  | some f => f.value

def fieldBytes (l : HeaderText) : List UInt8 :=
  match l.field with
  | none => []
  | some f => colon :: f.bytes

def bytes (l : HeaderText) : List UInt8 :=
  l.name ++ l.fieldBytes ++ List.replicate l.crs cr ++ [lf]

/-- Where the value starts in the line; behind the name when there is no colon. -/
def valueOffset (l : HeaderText) : Nat :=
  match l.field with
  | none => l.name.length
  | some f => l.name.length + 1 + f.before

theorem name_length_le (l : HeaderText) : l.name.length + l.fieldBytes.length + 1 ≤ l.bytes.length := by
  simp only [bytes, List.length_append, List.length_replicate, List.length_singleton]
  omega

theorem value_end_le (l : HeaderText) :
    l.name.length ≤ l.valueOffset ∧ l.valueOffset + l.value.length + 1 ≤ l.bytes.length := by
  have hName := l.name_length_le
  unfold valueOffset value
  unfold fieldBytes at hName
  cases hField : l.field with
  | none =>
      rw [hField] at hName
      exact ⟨Nat.le_refl _, by simpa using hName⟩
  | some f =>
      simp only [hField, FieldText.bytes, List.length_cons, List.length_append,
        List.length_replicate] at hName
      exact ⟨by simp only; omega, by simp only; omega⟩

/-- The parser keeps the header: `invalid_header` stays 0. -/
def Valid (l : HeaderText) : Prop := ∀ c ∈ l.name, IsNameByte c

theorem length_bytes_pos (l : HeaderText) : 0 < l.bytes.length := by
  simp [bytes]

instance : DecidablePred Valid := fun l => List.decidableBAll IsNameByte l.name

/-- The line is the start of a reply to the parser, which skips it when the
request has an upstream. -/
def StartsReply (l : HeaderText) : Prop := replyMark <+: l.name

end HeaderText

def nameHash (w : List UInt8) : UInt32 := w.foldl (fun key c => ngxHash key (tolower c)) 0

/-- What the state `sw_name` does with a name byte. -/
def nameStep (σ : HeaderLineScan) (c : UInt8) : HeaderLineScan :=
  if lowcase c ≠ 0 then
    { σ with req := σ.req.setLowcase σ.i (lowcase c), hash := ngxHash σ.hash (lowcase c),
             i := (σ.i + 1) % 32 }
  else if c = underscore then
    { σ with req := σ.req.setLowcase σ.i c, hash := ngxHash σ.hash c, i := (σ.i + 1) % 32 }
  else { σ with req := { σ.req with invalidHeader := 1 } }

/-- What the state `sw_start` resets at the first byte of a name. -/
def openName (p : Nat) (c : UInt8) (σ : HeaderLineScan) : HeaderLineScan where
  state := .name
  req := { σ.req with headerNameStart := p, invalidHeader := 0 }
  hash := if IsNameByte c then 0 else σ.hash
  i := if IsNameByte c then 0 else σ.i

/-- The scan behind the name of a line at `p`. -/
def HeaderText.scanName (l : HeaderText) (p : Nat) (σ : HeaderLineScan) : HeaderLineScan :=
  l.name.foldl nameStep (openName p l.first σ)

/-- The positions of the line's name and value, stored in a request. -/
def HeaderText.mark (l : HeaderText) (p : Nat) (r : RequestT) : RequestT :=
  { r with
    headerNameEnd := p + l.name.length
    headerStart := p + l.valueOffset
    headerEnd := p + l.valueOffset + l.value.length }

def RequestT.forgetHeader (r : RequestT) : RequestT :=
  { r with
    state := 0, headerNameStart := 0, headerNameEnd := 0, headerStart := 0, headerEnd := 0,
    headerHash := 0, headerLength := 0, lowcaseIndex := 0, invalidHeader := 0,
    lowcaseHeader := fun _ => 0 }

section Name

theorem tolower_underscore : tolower underscore = underscore := by decide

theorem lowcase_underscore : lowcase underscore = 0 := by decide

@[simp] theorem nameStep_state (σ : HeaderLineScan) (c : UInt8) : (nameStep σ c).state = σ.state := by
  unfold nameStep
  split_ifs <;> rfl

theorem nameStep_req (σ : HeaderLineScan) (c : UInt8) :
    ∃ invalid low, (nameStep σ c).req = { σ.req with invalidHeader := invalid, lowcaseHeader := low } := by
  unfold nameStep
  split_ifs <;> exact ⟨_, _, rfl⟩

theorem nameStep_invalid (σ : HeaderLineScan) (c : UInt8) :
    (nameStep σ c).req.invalidHeader = 0 ↔ σ.req.invalidHeader = 0 ∧ IsNameByte c := by
  unfold nameStep IsNameByte
  split_ifs <;> simp_all [RequestT.setLowcase]

theorem nameStep_hash {σ : HeaderLineScan} {c : UInt8} (h : IsNameByte c) :
    (nameStep σ c).hash = ngxHash σ.hash (tolower c) := by
  unfold nameStep
  split_ifs with hTable hUnderscore
  · rw [← lowcase_eq_tolower c hTable]
  · subst hUnderscore
    rw [tolower_underscore]
  · exact absurd h (not_or.mpr ⟨hTable, hUnderscore⟩)

theorem foldl_nameStep_req (w : List UInt8) (σ : HeaderLineScan) :
    (w.foldl nameStep σ).state = σ.state ∧
      ∃ invalid low, (w.foldl nameStep σ).req =
        { σ.req with invalidHeader := invalid, lowcaseHeader := low } := by
  induction w generalizing σ with
  | nil => exact ⟨rfl, _, _, rfl⟩
  | cons c cs ih =>
      obtain ⟨hState, invalid, low, hReq⟩ := ih (nameStep σ c)
      obtain ⟨invalid', low', hHere⟩ := nameStep_req σ c
      refine ⟨hState.trans (nameStep_state σ c), invalid, low, ?_⟩
      rw [List.foldl_cons, hReq, hHere]

theorem foldl_nameStep_invalid (w : List UInt8) (σ : HeaderLineScan) :
    (w.foldl nameStep σ).req.invalidHeader = 0 ↔
      σ.req.invalidHeader = 0 ∧ ∀ c ∈ w, IsNameByte c := by
  induction w generalizing σ with
  | nil => simp
  | cons c cs ih =>
      rw [List.foldl_cons, ih, nameStep_invalid, List.forall_mem_cons, and_assoc]

theorem foldl_nameStep_hash {w : List UInt8} (σ : HeaderLineScan) (h : ∀ c ∈ w, IsNameByte c) :
    (w.foldl nameStep σ).hash = w.foldl (fun key c => ngxHash key (tolower c)) σ.hash := by
  induction w generalizing σ with
  | nil => rfl
  | cons c cs ih =>
      rw [List.forall_mem_cons] at h
      rw [List.foldl_cons, List.foldl_cons, ih _ h.2, nameStep_hash h.1]

end Name

variable (mem : Mem) {p : Nat}

/-- The first byte of a line opens the name. -/
theorem headerLineStep_start {σ : HeaderLineScan} {c : UInt8} (hState : σ.state = .start)
    (hPlain : IsPlain c) :
    headerLineStep mem true p σ c = .next (nameStep (openName p c σ) c) := by
  obtain ⟨hNul, hCr, hLf⟩ := hPlain
  obtain ⟨state, r, hash, i⟩ := σ
  subst hState
  by_cases hTable : lowcase c ≠ 0
  · simp [headerLineStep, nameStep, openName, IsNameByte, RequestT.setLowcase, hCr, hLf, hTable]
  · by_cases hUnderscore : c = underscore
    · subst hUnderscore
      simp [headerLineStep, nameStep, openName, IsNameByte, RequestT.setLowcase, hCr, hLf,
        lowcase_underscore]
    · simp [headerLineStep, nameStep, openName, IsNameByte, hCr, hLf, hNul, hTable, hUnderscore]

/-- A further byte of the name, unless it completes the start of a reply. -/
theorem headerLineStep_name {σ : HeaderLineScan} {c : UInt8} (hState : σ.state = .name)
    (hPlain : IsPlain c) (hColon : c ≠ colon)
    (hReply : ¬ (c = slash ∧ σ.req.upstream ≠ 0 ∧
      (p : Int) - (σ.req.headerNameStart : Int) = 4 ∧
      ngxStrCmp mem σ.req.headerNameStart ['H', 'T', 'T', 'P'])) :
    headerLineStep mem true p σ c = .next (nameStep σ c) := by
  obtain ⟨hNul, hCr, hLf⟩ := hPlain
  obtain ⟨state, r, hash, i⟩ := σ
  subst hState
  simp only at hReply
  by_cases hTable : lowcase c ≠ 0
  · simp [headerLineStep, nameStep, hTable]
  · by_cases hUnderscore : c = underscore
    · subst hUnderscore
      simp [headerLineStep, nameStep, lowcase_underscore]
    · simp only [headerLineStep, nameStep, hCr, hLf, hNul, hTable, hUnderscore, hColon, hReply,
        if_false]

/-- The terminator of a line, from any state that a line can end in. Carriage returns
may come in a row in front of the line feed. -/
theorem run_lineEnd {x : Nat} {σ τ : HeaderLineScan} (n : Nat)
    (hLf : headerLineStep mem true x σ lf = .halt (.done τ))
    (hCr : headerLineStep mem true x σ cr = .next { τ with state := .almostDone }) :
    ∃ s, run (headerLineStep mem true) x σ (List.replicate n cr ++ [lf]) =
      .halted (x + n) (.done { τ with state := s }) := by
  have hAlmost : ∀ y n, run (headerLineStep mem true) y { τ with state := .almostDone }
      (List.replicate n cr ++ [lf]) = .halted (y + n) (.done { τ with state := .almostDone }) := by
    intro y n
    induction n generalizing y with
    | zero => simp [run, headerLineStep]
    | succ n ih =>
        have hStay : headerLineStep mem true y { τ with state := .almostDone } cr =
            .next { τ with state := .almostDone } := by
          simp [headerLineStep, show cr ≠ lf by decide]
        rw [List.replicate_succ, List.cons_append, run_cons_next _ hStay, ih (y + 1)]
        congr 1
        omega
  cases n with
  | zero => exact ⟨τ.state, by simp [run, hLf]⟩
  | succ n =>
      refine ⟨.almostDone, ?_⟩
      rw [List.replicate_succ, List.cons_append, run_cons_next _ hCr, hAlmost (x + 1) n]
      congr 1
      omega

/-- Inside a value a byte moves between the two states of a value, and marks
where a run of spaces begins. -/
theorem headerLineStep_value {x : Nat} {σ : HeaderLineScan} {c : UInt8}
    (hState : σ.state = .value ∨ σ.state = .spaceAfterValue) (hPlain : IsPlain c) :
    ∃ e, headerLineStep mem true x σ c =
      .next { σ with state := if c = sp then .spaceAfterValue else .value,
                     req := { σ.req with headerEnd := e } } := by
  obtain ⟨hNul, hCr, hLf⟩ := hPlain
  obtain ⟨state, r, hash, i⟩ := σ
  rcases hState with hState | hState <;> subst hState <;> by_cases hSp : c = sp
  · exact ⟨x, by simp [headerLineStep, hSp]⟩
  · exact ⟨r.headerEnd, by simp [headerLineStep, hSp, hCr, hLf, hNul]⟩
  · exact ⟨r.headerEnd, by simp [headerLineStep, hSp]⟩
  · exact ⟨r.headerEnd, by simp [headerLineStep, hSp, hCr, hLf, hNul]⟩

/-- The bytes of a value, up to one that is no space. -/
theorem run_value {x : Nat} {σ : HeaderLineScan} {v : List UInt8} (hState : σ.state = .value)
    (hPlain : ∀ c ∈ v, IsPlain c) :
    ∃ s e, run (headerLineStep mem true) x σ v =
        .pending { σ with state := s, req := { σ.req with headerEnd := e } } ∧
      (s = .value ∨ s = .spaceAfterValue) ∧ (v.getLast? ≠ some sp → s = .value) := by
  induction v using List.reverseRecOn with
  | nil => exact ⟨.value, σ.req.headerEnd, by rw [← hState]; rfl, Or.inl rfl, fun _ => rfl⟩
  | append_singleton v c ih =>
      obtain ⟨s, e, hRun, hs, -⟩ := ih fun d hd => hPlain d (List.mem_append_left _ hd)
      obtain ⟨e', hStep⟩ := headerLineStep_value mem (x := x + v.length) (c := c)
        (σ := { σ with state := s, req := { σ.req with headerEnd := e } }) hs
        (hPlain c (by simp))
      refine ⟨if c = sp then .spaceAfterValue else .value, e', ?_, ?_, ?_⟩
      · rw [run_append_of_pending _ hRun, run_cons_next _ hStep]
        rfl
      · split_ifs <;> simp
      · intro hLast
        rw [List.getLast?_append, List.getLast?_singleton] at hLast
        simp_all

/-- Behind the value only spaces and the terminator follow. The end of the value is in
front of the first of them. -/
theorem run_valueEnd {x : Nat} {σ : HeaderLineScan} (hState : σ.state = .value) (after n : Nat) :
    ∃ s, run (headerLineStep mem true) x σ (List.replicate after sp ++ (List.replicate n cr ++ [lf])) =
      .halted (x + after + n)
        (.done { σ with state := s, req := { σ.req with headerEnd := x } }) := by
  obtain ⟨state, r, hash, i⟩ := σ
  subst hState
  cases after with
  | zero =>
      obtain ⟨s, hRun⟩ := run_lineEnd mem (x := x) (σ := ⟨.value, r, hash, i⟩)
        (τ := ⟨.value, { r with headerEnd := x }, hash, i⟩) n
        (by simp [headerLineStep, lf, cr, sp]) (by simp [headerLineStep, cr, sp])
      exact ⟨s, by simpa using hRun⟩
  | succ m =>
      have hFirst : headerLineStep mem true x ⟨.value, r, hash, i⟩ sp =
          .next ⟨.spaceAfterValue, { r with headerEnd := x }, hash, i⟩ := by
        simp [headerLineStep]
      have hSpaces : run (headerLineStep mem true) (x + 1)
          ⟨.spaceAfterValue, { r with headerEnd := x }, hash, i⟩ (List.replicate m sp) =
          .pending ⟨.spaceAfterValue, { r with headerEnd := x }, hash, i⟩ := by
        apply run_const
        intro q c hc
        rw [List.eq_of_mem_replicate hc]
        simp [headerLineStep]
      obtain ⟨s, hRun⟩ := run_lineEnd mem (x := x + 1 + m)
        (σ := ⟨.spaceAfterValue, { r with headerEnd := x }, hash, i⟩)
        (τ := ⟨.spaceAfterValue, { r with headerEnd := x }, hash, i⟩) n
        (by simp [headerLineStep, lf, cr, sp]) (by simp [headerLineStep, cr, sp])
      refine ⟨s, ?_⟩
      rw [List.replicate_succ, List.cons_append, run_cons_next _ hFirst,
        run_append_of_pending _ hSpaces, List.length_replicate, hRun]
      congr 1
      omega

/-- The field of a line and its terminator, read behind the name. A line without a colon
is finished by the same run. -/
theorem run_field {σ : HeaderLineScan} (l : HeaderText) (hState : σ.state = .name) :
    ∃ s, run (headerLineStep mem true) (p + l.name.length) σ
        (l.fieldBytes ++ (List.replicate l.crs cr ++ [lf])) =
      .halted (p + l.name.length + l.fieldBytes.length + l.crs)
        (.done { σ with state := s, req := l.mark p σ.req }) := by
  obtain ⟨state, r, hash, i⟩ := σ
  subst hState
  unfold HeaderText.fieldBytes HeaderText.mark HeaderText.valueOffset HeaderText.value
  rcases hField : l.field with - | ⟨before, value, after, hPlain, hHead, hLast, hAfter⟩
  · obtain ⟨s, hRun⟩ := run_lineEnd mem (x := p + l.name.length) (σ := ⟨.name, r, hash, i⟩)
      (τ := ⟨.name, l.mark p r, hash, i⟩) l.crs
      (by simp [headerLineStep, HeaderText.mark, HeaderText.valueOffset, HeaderText.value, hField,
            show lowcase lf = 0 by decide, lf, colon, cr, underscore])
      (by simp [headerLineStep, HeaderText.mark, HeaderText.valueOffset, HeaderText.value, hField,
            show lowcase cr = 0 by decide, colon, cr, underscore])
    refine ⟨s, ?_⟩
    simpa [HeaderText.mark, HeaderText.valueOffset, HeaderText.value, hField] using hRun
  · have hColon : headerLineStep mem true (p + l.name.length) ⟨.name, r, hash, i⟩ colon =
        .next ⟨.spaceBeforeValue, { r with headerNameEnd := p + l.name.length }, hash, i⟩ := by
      simp [headerLineStep, show lowcase colon = 0 by decide, colon, underscore]
    have hSpaces : run (headerLineStep mem true) (p + l.name.length + 1)
        ⟨.spaceBeforeValue, { r with headerNameEnd := p + l.name.length }, hash, i⟩
        (List.replicate before sp) =
        .pending ⟨.spaceBeforeValue, { r with headerNameEnd := p + l.name.length }, hash, i⟩ := by
      apply run_const
      intro q c hc
      rw [List.eq_of_mem_replicate hc]
      simp [headerLineStep]
    simp only [FieldText.bytes, List.cons_append, List.append_assoc]
    rw [run_cons_next _ hColon, run_append_of_pending _ hSpaces, List.length_replicate]
    cases value with
    | nil =>
        obtain rfl := hAfter rfl
        obtain ⟨s, hRun⟩ := run_lineEnd mem (x := p + l.name.length + 1 + before)
          (σ := ⟨.spaceBeforeValue, { r with headerNameEnd := p + l.name.length }, hash, i⟩)
          (τ := ⟨.spaceBeforeValue,
            { r with
              headerNameEnd := p + l.name.length
              headerStart := p + l.name.length + 1 + before
              headerEnd := p + l.name.length + 1 + before }, hash, i⟩) l.crs
          (by simp [headerLineStep, lf, cr, sp]) (by simp [headerLineStep, cr, sp])
        refine ⟨s, ?_⟩
        simp only [List.replicate_zero, List.nil_append, List.length_cons, List.length_replicate,
          List.length_nil, List.append_nil]
        rw [hRun]
        simp only [Nat.add_zero, Nat.add_assoc, Nat.add_comm before]
    | cons c v =>
        have hc := hPlain c List.mem_cons_self
        have hSp : c ≠ sp := fun h => hHead (by rw [h]; rfl)
        have hFirst : headerLineStep mem true (p + l.name.length + 1 + before)
            ⟨.spaceBeforeValue, { r with headerNameEnd := p + l.name.length }, hash, i⟩ c =
            .next ⟨.value,
              { r with
                headerNameEnd := p + l.name.length
                headerStart := p + l.name.length + 1 + before }, hash, i⟩ := by
          simp [headerLineStep, hSp, hc.1, hc.2.1, hc.2.2]
        obtain ⟨s, e, hRun, -, hValue⟩ := run_value mem
          (x := p + l.name.length + 1 + before + 1)
          (σ := ⟨.value,
            { r with
              headerNameEnd := p + l.name.length
              headerStart := p + l.name.length + 1 + before }, hash, i⟩) (v := v) rfl
          fun d hd => hPlain d (List.mem_cons_of_mem c hd)
        obtain rfl := hValue fun h => hLast (by rw [List.getLast?_cons, h]; rfl)
        obtain ⟨s, hEnd⟩ := run_valueEnd mem
          (x := p + l.name.length + 1 + before + 1 + v.length)
          (σ := ⟨.value,
            { r with
              headerNameEnd := p + l.name.length
              headerStart := p + l.name.length + 1 + before
              headerEnd := e }, hash, i⟩) rfl after l.crs
        refine ⟨s, ?_⟩
        rw [List.cons_append, run_cons_next _ hFirst, run_append_of_pending _ hRun, hEnd]
        simp only [List.length_cons, List.length_append, List.length_replicate]
        congr 1
        · omega
        · congr 3 <;> omega

/-- The scan of a whole line, except when it starts a reply to a request with
an upstream. -/
theorem run_headerText {σ : HeaderLineScan} (l : HeaderText) (hState : σ.state = .start)
    (hMem : slice mem p (p + l.name.length) = l.name)
    (hReply : σ.req.upstream ≠ 0 → ¬ l.StartsReply) :
    ∃ s, run (headerLineStep mem true) p σ l.bytes =
      .halted (p + l.bytes.length - 1)
        (.done { l.scanName p σ with state := s, req := l.mark p (l.scanName p σ).req }) := by
  have hFirst := headerLineStep_start mem (p := p) hState l.first_plain
  have hName : ∀ pre post, l.rest = pre ++ post →
      run (headerLineStep mem true) (p + 1) (nameStep (openName p l.first σ) l.first) pre =
        .pending ((l.first :: pre).foldl nameStep (openName p l.first σ)) := by
    intro pre
    induction pre using List.reverseRecOn with
    | nil => exact fun _ _ => rfl
    | append_singleton pre c ih =>
        intro post hRest
        have hc : c ∈ l.rest := by
          rw [hRest]
          simp
        rw [List.append_assoc] at hRest
        rw [run_append_of_pending _ (ih _ hRest)]
        obtain ⟨hKeep, invalid, low, hReq⟩ :=
          foldl_nameStep_req (l.first :: pre) (openName p l.first σ)
        have hStep := headerLineStep_name mem (p := p + 1 + pre.length) (c := c)
          hKeep (l.rest_plain c hc).1 (l.rest_plain c hc).2 (by
            rintro ⟨rfl, hUpstream, hDistance, hHttp⟩
            rw [hReq] at hUpstream hDistance hHttp
            refine hReply hUpstream ⟨post, ?_⟩
            have hLength : pre.length = 3 := by
              simp only [openName] at hDistance
              omega
            have hSplit : l.name = (l.first :: pre) ++ (slash :: post) := by
              rw [HeaderText.name, hRest]
              rfl
            rw [hSplit] at hMem
            have hPre := (slice_eq_append hMem).1
            rw [List.length_cons, hLength] at hPre
            have hWord : l.first :: pre = ofChars ['H', 'T', 'T', 'P'] := by
              rw [← hPre]
              simpa [ngxStrCmp, openName] using hHttp
            rw [hSplit, hWord]
            rfl)
        rw [run_cons_next _ hStep, ← List.cons_append, List.foldl_append]
        rfl
  obtain ⟨s, hRun⟩ := run_field mem (p := p) (σ := l.scanName p σ) l
    (foldl_nameStep_req l.name _).1
  refine ⟨s, ?_⟩
  have hAll := hName l.rest [] (List.append_nil _).symm
  have hStart : p + 1 + l.rest.length = p + l.name.length := by
    rw [HeaderText.name, List.length_cons]
    omega
  rw [HeaderText.bytes, HeaderText.name, List.append_assoc, List.append_assoc, List.cons_append,
    run_cons_next _ hFirst, run_append_of_pending _ hAll, hStart]
  refine hRun.trans ?_
  congr 1
  simp only [HeaderText.name, List.length_append, List.length_cons, List.length_replicate,
    List.length_nil]
  omega

/-- The name and the value are slices of the line. -/
theorem HeaderText.slice_name {mem : Mem} {p : Nat} {l : HeaderText} {rest : List UInt8} {q : Nat}
    (hMem : slice mem p q = l.bytes ++ rest) :
    slice mem p (p + l.name.length) = l.name ∧
      slice mem (p + l.valueOffset) (p + l.valueOffset + l.value.length) = l.value := by
  unfold valueOffset value
  rw [bytes, List.append_assoc, List.append_assoc, List.append_assoc] at hMem
  obtain ⟨hName, hRest⟩ := slice_eq_append hMem
  refine ⟨hName, ?_⟩
  cases hField : l.field with
  | none => simp
  | some f =>
      simp only [fieldBytes, hField, FieldText.bytes, List.cons_append, List.append_assoc] at hRest
      obtain ⟨-, -, hColon⟩ := slice_eq_cons hRest
      have hSpaces := (slice_eq_append hColon).2
      rw [List.length_replicate] at hSpaces
      have hValue := (slice_eq_append hSpaces).1
      simp only
      rwa [show p + (l.name.length + 1 + f.before) = p + l.name.length + 1 + f.before by omega]

end Leactor
