import Leactor.Http.Upstream

/-! A buffer of whole requests on its way upstream: the recursion over pipelined
requests sends their chains one after another. For requests in the plainest form
the chains hold the received bytes with the header names in lower case. -/
namespace Leactor

open Ascii Scan Loop Memory

/-- The pair behind the chains of the requests, each of which went out whole. -/
def ConnPair.forwardedAll (p : ConnPair) (reqs : List RequestText) : ConnPair :=
  reqs.foldl (fun p x => p.forwarded x.sent) p

/-- The calls of `http_send_to_upstream` for the requests come back. -/
def ChainsReturn (junk : Nat → Nat → LtChain) (base : Nat) (reqs : List RequestText) : Prop :=
  ∀ i x, reqs[i]? = some x → ∃ res, ChainReturns (junk (base + i)) (2 * x.headers + 3) res

/-- The calls come back with `LOK`. -/
def ChainsEnd (junk : Nat → Nat → LtChain) (base : Nat) (reqs : List RequestText) : Prop :=
  ∀ i x, reqs[i]? = some x → ChainReturns (junk (base + i)) (2 * x.headers + 3) .lok

section Pipeline

variable {writev : Nat → List UInt8 → WritevOutcome} {junk : Nat → Nat → LtChain} {h : Head} {p : ConnPair}

theorem ConnPair.forwardedAll_counts (p : ConnPair) (reqs : List RequestText) :
    (p.forwardedAll reqs).calls = p.calls + reqs.length ∧
      (p.forwardedAll reqs).written = p.written ++ reqs.flatMap RequestText.sent ∧
      (p.forwardedAll reqs).handed = p.handed ++ reqs.map RequestText.sent := by
  induction reqs generalizing p with
  | nil => simp [forwardedAll]
  | cons x reqs ih =>
      obtain ⟨hCalls, hWritten, hHanded⟩ := ih (p.forwarded x.sent)
      refine ⟨?_, ?_, ?_⟩
      · rw [forwardedAll, List.foldl_cons, ← forwardedAll, hCalls, forwarded, List.length_cons]
        simp only
        omega
      · rw [forwardedAll, List.foldl_cons, ← forwardedAll, hWritten, forwarded, List.flatMap_cons, List.append_assoc]
      · rw [forwardedAll, List.foldl_cons, ← forwardedAll, hHanded, forwarded, List.map_cons, List.append_assoc,
          List.singleton_append]

/-- What holds of each request and its number, from the first one on. -/
theorem forall_getElem?_cons {α : Type*} {P : Nat → α → Prop} {base : Nat} {x : α} {xs : List α} :
    (∀ i y, (x :: xs)[i]? = some y → P (base + i) y) ↔
      P base x ∧ ∀ i y, xs[i]? = some y → P (base + 1 + i) y := by
  constructor
  · intro hAll
    refine ⟨hAll 0 x rfl, fun i y hy => ?_⟩
    rw [Nat.add_assoc, Nat.add_comm 1 i]
    exact hAll (i + 1) y hy
  · rintro ⟨hFirst, hRest⟩ i y hy
    cases i with
    | zero =>
        cases hy
        exact hFirst
    | succ i =>
        rw [Nat.add_comm i 1, ← Nat.add_assoc]
        exact hRest i y hy

theorem chainsReturn_cons {base : Nat} {x : RequestText} {reqs : List RequestText} :
    ChainsReturn junk base (x :: reqs) ↔
      (∃ res, ChainReturns (junk base) (2 * x.headers + 3) res) ∧ ChainsReturn junk (base + 1) reqs := by
  unfold ChainsReturn
  exact forall_getElem?_cons (P := fun i (y : RequestText) => ∃ res, ChainReturns (junk i) (2 * y.headers + 3) res)

theorem chainsEnd_cons {base : Nat} {x : RequestText} {reqs : List RequestText} :
    ChainsEnd junk base (x :: reqs) ↔
      ChainReturns (junk base) (2 * x.headers + 3) .lok ∧ ChainsEnd junk (base + 1) reqs := by
  unfold ChainsEnd
  exact forall_getElem?_cons (P := fun i (y : RequestText) => ChainReturns (junk i) (2 * y.headers + 3) .lok)

/-- Where the links behind the chains are NULL, the calls come back with `LOK` or not at all. -/
theorem ChainsReturn.ends {base : Nat} {reqs : List RequestText} (h : ChainsReturn junk base reqs)
    (hLinks : ∀ n m, (junk n m).next = none) : ChainsEnd junk base reqs := by
  intro i x hx
  obtain ⟨res, hReturns⟩ := h i x hx
  obtain ⟨rfl, -⟩ := (chainReturns_null (hLinks _ _) res).mp hReturns
  exact hReturns

theorem chainsEnd_of_null {base : Nat} {reqs : List RequestText} (hLinks : ∀ n m, (junk n m).next = none)
    (hFew : ∀ x ∈ reqs, x.OnePool) : ChainsEnd junk base reqs :=
  fun _ x hx => (chainReturns_null (hLinks _ _) .lok).mpr ⟨rfl, hFew x (List.mem_of_getElem? hx)⟩

theorem ChainsEnd.returns {base : Nat} {reqs : List RequestText} (h : ChainsEnd junk base reqs) :
    ChainsReturn junk base reqs :=
  fun i x hx => ⟨.lok, h i x hx⟩

/-- Nothing to read is nothing to do. -/
theorem ngxHttpParseRequestLine_nil {mem : Mem} {r : RequestT} {b : LtBuffer} (hState : r.state = 0)
    (hNil : b.unread mem = []) : (ngxHttpParseRequestLine mem r b).1 = .lagain := by
  rw [ngxHttpParseRequestLine, hState, hNil]
  rfl

theorem requestTurn_nil {ω : Type*} (send : Head → ω → Option ω) (s : ω) (hState : h.req.state = 0)
    (hNil : h.buf.unread h.mem = []) :
    ∃ h', requestTurn send (.requestLine, h, s) = .exit (some (.lagain, h', s)) := by
  have hLine := ngxHttpParseRequestLine_nil hState hNil
  generalize hCall : ngxHttpParseRequestLine h.mem h.req h.buf = call at hLine
  obtain ⟨rv, r, b⟩ := call
  simp only at hLine
  subst hLine
  refine ⟨{ h with req := r, buf := b }, ?_⟩
  simp only [requestTurn, hCall]
  rfl

/-- A finished head leads to the sending of its chain. -/
theorem AcceptsRequest.turns {ω : Type*} (send : Head → ω → Option ω) (s : ω) {h' : Head}
    (hAccepts : AcceptsRequest h h') :
    (∀ s', send h' s = some s' → Reaches (requestTurn send) (.requestLine, h, s) (.requestLine, h', s')) ∧
      (send h' s = none → Returns (requestTurn send) (.requestLine, h, s) none) := by
  obtain ⟨r, b, hLine, hReturns⟩ := hAccepts
  refine ⟨fun s' hSend => .head (requestTurn_accepted send hLine) (requestTurn_headers send hReturns hSend),
    fun hSend => (returns_again_iff (requestTurn_accepted send hLine)).mpr ?_⟩
  exact requestTurn_undefined send hReturns hSend

/-- What a row of requests leaves in the pair: every chain was taken whole. -/
structure ConnPair.PassesAll (p : ConnPair) (reqs : List RequestText) (p' : ConnPair) : Prop where
  calls : p'.calls = p.calls + reqs.length
  written : p'.written = p.written ++ reqs.flatMap RequestText.sent
  handed : p'.handed = p.handed ++ reqs.map RequestText.sent

theorem ConnPair.Passes.cons {x : RequestText} {reqs : List RequestText} {p' p'' : ConnPair}
    (h : p.Passes x.sent p') (hRest : p'.PassesAll reqs p'') : p.PassesAll (x :: reqs) p'' where
  calls := by
    rw [hRest.calls, h.calls, List.length_cons]
    omega
  written := by rw [hRest.written, h.written, List.flatMap_cons, List.append_assoc]
  handed := by rw [hRest.handed, h.handed, List.map_cons, List.append_assoc, List.singleton_append]

/-- A buffer of whole requests is forwarded request by request, to the last one or to
the first one whose call does not come back. -/
theorem Ready.pipeline (hReady : Ready h) (hWritev : ∀ n w, w ≠ [] → writev n w = .wrote w.length)
    (junk : Nat → Nat → LtChain) (p : ConnPair) {reqs : List RequestText}
    (hUnread : h.buf.unread h.mem = reqs.flatMap RequestText.bytes) (hSize : h.buf.last - h.buf.pos < 2 ^ 30) :
    (ChainsReturn junk p.handed.length reqs →
      ∃ h' p', Returns (requestTurn (sendRequest writev junk)) (.requestLine, h, p) (some (.lagain, h', p')) ∧
        p.PassesAll reqs p' ∧ (ChainsEnd junk p.handed.length reqs → p' = p.forwardedAll reqs)) ∧
    (¬ ChainsReturn junk p.handed.length reqs →
      Returns (requestTurn (sendRequest writev junk)) (.requestLine, h, p) none) := by
  induction reqs generalizing h p with
  | nil =>
      refine ⟨fun _ => ?_, fun hNot => absurd (fun i x hx => nomatch hx) hNot⟩
      obtain ⟨h', hTurn⟩ := requestTurn_nil (sendRequest writev junk) p hReady.state hUnread
      exact ⟨h', p, returns_of_exit hTurn, ⟨rfl, (List.append_nil _).symm, (List.append_nil _).symm⟩, fun _ => rfl⟩
  | cons x reqs ih =>
      rw [List.flatMap_cons] at hUnread
      obtain ⟨h', hAccepts, hReady', hRest, hSize', base, fields, hList, hHeaders, hBytes⟩ :=
        hReady.request x hUnread hSize
      obtain ⟨hReach, hFault⟩ := hAccepts.turns (sendRequest writev junk) p
      have hLength := congrArg List.length hUnread
      simp only [LtBuffer.unread, length_slice, List.length_append] at hLength
      have hSent := x.sent_length
      have hBound : x.sent.length < 2 ^ 31 := by omega
      have hWhole := hWritev p.calls x.sent x.sent_ne_nil
      rw [chainsReturn_cons, chainsEnd_cons]
      by_cases hCall : ∃ res, ChainReturns (junk p.handed.length) (2 * x.headers + 3) res
      · obtain ⟨res, hCall⟩ := hCall
        obtain ⟨p₁, hSend, hPasses, hLok⟩ :=
          sendRequest_returns hList hBytes x.sent_ne_nil hBound (by rwa [hHeaders]) hWhole
        have hHere := hReach _ hSend
        obtain ⟨hAll, hNone⟩ := ih hReady' p₁ hRest hSize'
        rw [show p₁.handed.length = p.handed.length + 1 by rw [hPasses.handed, List.length_append]; rfl] at hAll hNone
        refine ⟨fun hReturn => ?_, fun hNot => ?_⟩
        · obtain ⟨h'', p', hReturns, hPassesAll, hEnds⟩ := hAll hReturn.2
          refine ⟨h'', p', hHere.returns hReturns, hPasses.cons hPassesAll, fun hEnd => ?_⟩
          rw [hEnds hEnd.2, hLok (Option.some.inj (hCall.1.symm.trans hEnd.1.1))]
          rfl
        · exact hHere.returns (hNone fun hReturn => hNot ⟨⟨res, hCall⟩, hReturn⟩)
      · refine ⟨fun hReturn => absurd hReturn.1 hCall, fun _ => hFault ?_⟩
        refine sendRequest_undefined hList hBytes x.sent_ne_nil hBound (fun res hReturns => hCall ⟨res, ?_⟩) hWhole
        rwa [hHeaders] at hReturns

end Pipeline

/-- A header line `name: value`. -/
structure CanonicalLine where
  name : List UInt8
  value : List UInt8
  name_ne : name ≠ []
  name_byte : ∀ c ∈ name, IsDigit c ∨ IsLetter c ∨ c = minus ∨ c = underscore
  name_hash : nameHash name ≠ hostHash
  value_plain : ∀ c ∈ value, IsPlain c
  value_head : value.head? ≠ some sp
  value_last : value.getLast? ≠ some sp

/-- A request of a method, a path, a version and at least one header line. -/
structure CanonicalRequest where
  method : List UInt8
  path : List UInt8
  major : UInt8
  minor : UInt8
  lines : List CanonicalLine
  method_ne : method ≠ []
  method_byte : ∀ c ∈ method, IsMethodByte c
  path_byte : ∀ c ∈ path, bang ≤ c ∧ c ≤ tilde
  path_unmarked : ¬ (pathRequest path).UriMarked
  major_digit : one ≤ major ∧ major ≤ nine
  minor_digit : IsDigit minor
  lines_ne : lines ≠ []

theorem nameByte_iff (c : UInt8) :
    IsNameByte c ↔ IsDigit c ∨ IsLetter c ∨ c = minus ∨ c = underscore := by
  rw [IsNameByte, lowcase_ne_zero_iff, or_assoc, or_assoc]

namespace CanonicalLine

def bytes (l : CanonicalLine) : List UInt8 := l.name ++ (colon :: sp :: l.value ++ [cr, lf])

def lowered (l : CanonicalLine) : CanonicalLine where
  name := l.name.map tolower
  value := l.value
  name_ne := mt List.map_eq_nil_iff.mp l.name_ne
  name_byte := by
    simp only [List.mem_map, forall_exists_index, and_imp, forall_apply_eq_imp_iff₂, ← nameByte_iff,
      tolower_nameByte]
    exact fun c hc => (nameByte_iff c).mpr (l.name_byte c hc)
  name_hash := by
    rw [nameHash_tolower]
    exact l.name_hash
  value_plain := l.value_plain
  value_head := l.value_head
  value_last := l.value_last

/-- The line as the parser reads it. -/
def text (l : CanonicalLine) : HeaderText where
  first := l.name.head l.name_ne
  rest := l.name.tail
  field := some ⟨1, l.value, 0, l.value_plain, l.value_head, l.value_last, fun _ => rfl⟩
  crs := 1
  first_plain := IsNameByte.plain ((nameByte_iff _).mpr (l.name_byte _ (List.head_mem _)))
  rest_plain c hc := by
    have hByte := (nameByte_iff c).mpr (l.name_byte c (List.mem_of_mem_tail hc))
    exact ⟨hByte.plain, hByte.ne.1⟩

theorem text_name (l : CanonicalLine) : l.text.name = l.name := List.cons_head_tail l.name_ne

theorem text_valid (l : CanonicalLine) : l.text.Valid := by
  intro c hc
  rw [text_name] at hc
  exact (nameByte_iff c).mpr (l.name_byte c hc)

theorem text_bytes (l : CanonicalLine) : l.text.bytes = l.bytes := by
  rw [HeaderText.bytes, text_name]
  simp [text, HeaderText.fieldBytes, FieldText.bytes, bytes]

theorem text_not_host (l : CanonicalLine) : ¬ l.text.NamesHost := by
  rw [HeaderText.NamesHost, text_name]
  exact l.name_hash

theorem text_relayable (l : CanonicalLine) : l.text.Relayable :=
  ⟨⟨_, rfl, Or.inl (Nat.le_refl 1)⟩, if_neg l.text_not_host⟩

/-- Lower-casing the line and narrowing its slices leave the line with its name in lower case. -/
theorem text_relayed (l : CanonicalLine) : l.text.lowered.narrowed.bytes = l.lowered.bytes := by
  have hField : l.text.lowered.field = l.text.field := if_neg fun hLowers => l.text_not_host hLowers.1
  have hName : l.text.lowered.narrowed.name = l.name.map tolower :=
    l.text.lowered_name.trans (by rw [text_name])
  have hNarrow : l.text.lowered.narrowed.field = l.text.field := by
    rw [HeaderText.narrowed, hField]
    rfl
  have hCrs : l.text.lowered.narrowed.crs = 1 := by
    rw [HeaderText.narrowed, hField]
    rfl
  rw [HeaderText.bytes, hName, HeaderText.fieldBytes, hNarrow, hCrs]
  simp [text, FieldText.bytes, bytes, lowered]

end CanonicalLine

theorem pathRest_of_plain {w : List UInt8} (h : ∀ c ∈ w, IsPlain c ∧ c ≠ sp) : PathRest w := by
  induction w using List.reverseRecOn with
  | nil => exact .nil
  | append_singleton w c ih =>
      rw [List.forall_mem_append, List.forall_mem_singleton] at h
      exact .byte (ih h.1) h.2.1 h.2.2

theorem printable_plain : ∀ c : UInt8, bang ≤ c ∧ c ≤ tilde → IsPlain c ∧ c ≠ sp := by
  apply forall_byte
  decide +kernel

namespace CanonicalRequest

def bytes (x : CanonicalRequest) : List UInt8 :=
  x.method ++ (sp :: slash :: x.path ++ (sp :: ofChars ['H', 'T', 'T', 'P', '/'] ++
    ([x.major, dot, x.minor, cr, lf] ++ (x.lines.flatMap CanonicalLine.bytes ++ [cr, lf]))))

def lowered (x : CanonicalRequest) : CanonicalRequest :=
  { x with lines := x.lines.map CanonicalLine.lowered, lines_ne := mt List.map_eq_nil_iff.mp x.lines_ne }

def line (x : CanonicalRequest) : RequestLineText where
  skip := []
  method := x.method
  gap := 0
  target := .path none x.path (pathRest_of_plain fun c hc => printable_plain c (x.path_byte c hc))
  space := 1
  version := some ⟨x.major, [], x.minor, [], 0, x.major_digit, List.forall_mem_nil _, x.minor_digit,
    List.forall_mem_nil _⟩
  crlf := true
  skip_break := break_of_mem_nil
  method_ne := x.method_ne
  method_byte := x.method_byte
  space_pos _ := Nat.one_pos

def block (x : CanonicalRequest) : HeaderBlock where
  lines := x.lines.map fun l => ([], l.text)
  skip := []
  blank := true

end CanonicalRequest

theorem relays_canonical {lines : List CanonicalLine} (h : lines ≠ []) :
    Relays 2 (lines.map fun l => (([] : List UInt8), l.text)) := by
  induction lines with
  | nil => exact absurd rfl h
  | cons l lines ih =>
      have hEnd : l.text.endBytes = [cr, lf] := rfl
      rw [List.map_cons]
      by_cases hNil : lines = []
      · subst hNil
        exact .last l.text_valid l.text_relayable (List.forall_mem_nil _) (by rw [hEnd]; rfl)
      · exact .valid l.text_valid l.text_relayable (by rw [hEnd]; rfl) (ih hNil)

/-- The relayed lines of canonical ones. -/
theorem relayLines_canonical (lines : List CanonicalLine) :
    HeaderBlock.linesBytes (relayLines ((lines.map fun l => (([] : List UInt8), l.text)).map lowerText)) =
      lines.flatMap fun l => l.lowered.bytes := by
  induction lines with
  | nil => rfl
  | cons l lines ih =>
      rw [List.map_cons, List.map_cons, lowerText, if_pos l.text_valid, relayLines,
        if_pos (l.text.lowered_valid.mpr l.text_valid), HeaderBlock.linesBytes_cons, List.flatMap_cons,
        l.text_relayed, List.nil_append]
      cases lines with
      | nil => rfl
      | cons l' lines =>
          rw [if_neg, ih]
          intro hNone
          refine hNone _ List.mem_cons_self ?_
          rw [lowerText, if_pos l'.text_valid]
          exact l'.text.lowered_valid.mpr l'.text_valid

namespace CanonicalRequest

/-- A canonical request is one that the builder expects. -/
def text (x : CanonicalRequest) : RequestText where
  line := x.line
  block := x.block
  path := trivial
  unmarked := x.path_unmarked
  version := rfl
  current := by
    obtain ⟨hMajor, hMajor'⟩ := majorDigit_bounds _ x.major_digit
    obtain ⟨hMinor, hMinor'⟩ := digitValue_bounds _ x.minor_digit
    have hNumber : x.line.versionNumber = wrap32 (digitValue x.major * 1000 + digitValue x.minor) := rfl
    rw [hNumber, wrap32_of_bounds (by omega) (by omega)]
    omega
  crlf := rfl
  readable := by
    refine ⟨fun e he => ⟨?_, fun hUpstream => absurd rfl hUpstream⟩, .nil⟩
    obtain ⟨l, -, rfl⟩ := List.mem_map.mp he
    exact .nil
  relayable := relays_canonical x.lines_ne

theorem text_bytes (x : CanonicalRequest) : x.text.bytes = x.bytes := by
  have hLines : HeaderBlock.linesBytes x.block.lines = x.lines.flatMap CanonicalLine.bytes := by
    rw [HeaderBlock.linesBytes, block, List.flatMap_map]
    simp only [List.nil_append, CanonicalLine.text_bytes]
  rw [RequestText.bytes, show x.text.line = x.line from rfl, show x.text.block = x.block from rfl,
    HeaderBlock.bytes, hLines]
  simp [bytes, line, block, RequestLineText.bytes, RequestLineText.front, RequestLineText.opening,
    TargetText.bytes, authorityBytes, versionBytes, VersionText.bytes, VersionText.numbers, replyMark, lineBreak]

/-- The chain of a canonical request holds it with its names in lower case. -/
theorem text_sent (x : CanonicalRequest) : x.text.sent = x.lowered.bytes := by
  have hLines : HeaderBlock.linesBytes x.block.relayed.lines = x.lowered.lines.flatMap CanonicalLine.bytes :=
    (relayLines_canonical x.lines).trans (by rw [lowered, List.flatMap_map])
  rw [RequestText.sent, show x.text.line = x.line from rfl, show x.text.block = x.block from rfl,
    HeaderBlock.bytes, hLines, RequestLineText.relayed_bytes (by exact trivial)]
  simp [bytes, lowered, line, block, HeaderBlock.relayed, TargetText.uri, versionBytes, VersionText.bytes,
    VersionText.numbers, replyMark, lineBreak]

theorem text_headers (x : CanonicalRequest) : x.text.headers = x.lines.length := by
  rw [RequestText.headers, show x.text.block = x.block from rfl, block]
  rw [List.filter_eq_self.mpr, List.length_map]
  intro e he
  obtain ⟨l, -, rfl⟩ := List.mem_map.mp he
  exact decide_eq_true l.text_valid

end CanonicalRequest

/-- `writev` takes every byte. -/
def takesEveryByte : Nat → List UInt8 → WritevOutcome := fun _ w => .wrote w.length

theorem takesEveryByte_eq (n : Nat) (w : List UInt8) : takesEveryByte n w = .wrote w.length := rfl

def nullChains : Nat → Nat → LtChain := fun _ _ => ⟨⟨0, 0⟩, none, 0⟩

/-- The requests are sent in as many chains, and their bytes come out with the header
names in lower case. -/
def SendsVerbatim (junk : Nat → Nat → LtChain) (h : Head) (p : ConnPair) (reqs : List CanonicalRequest) : Prop :=
  ∃ h' p', Returns (requestTurn (sendRequest takesEveryByte junk)) (.requestLine, h, p) (some (.lagain, h', p')) ∧
    p'.calls = p.calls + reqs.length ∧ p'.handed.length = p.handed.length + reqs.length ∧
    p'.written = p.written ++ reqs.flatMap fun x => x.lowered.bytes

theorem ready_of_zeroed {h : Head} (hZero : h.req = {}) : Ready h :=
  ⟨by rw [hZero], by rw [hZero]; decide, by rw [hZero]⟩

theorem flatMap_canonical (reqs : List CanonicalRequest) :
    reqs.flatMap CanonicalRequest.bytes = (reqs.map CanonicalRequest.text).flatMap RequestText.bytes := by
  rw [List.flatMap_map]
  simp only [CanonicalRequest.text_bytes]

theorem chainsReturn_canonical (junk : Nat → Nat → LtChain) (base : Nat) (reqs : List CanonicalRequest) :
    ChainsReturn junk base (reqs.map CanonicalRequest.text) ↔
      ∀ i x, reqs[i]? = some x → ∃ res, ChainReturns (junk (base + i)) (2 * x.lines.length + 3) res := by
  constructor
  · intro hAll i x hx
    rw [← x.text_headers]
    exact hAll i x.text (by rw [List.getElem?_map, hx]; rfl)
  · intro hAll i y hy
    rw [List.getElem?_map, Option.map_eq_some_iff] at hy
    obtain ⟨x, hx, rfl⟩ := hy
    rw [x.text_headers]
    exact hAll i x hx

/-- Canonical requests in one buffer are sent verbatim exactly if the walk behind the
last block of each chain, whose link is never written, comes to an end, and the pool is
not freed twice. The condition is on what the blocks of the pools held before. -/
theorem sendsVerbatim_iff (junk : Nat → Nat → LtChain) {h : Head} (hZero : h.req = {})
    (hSize : h.buf.last - h.buf.pos < 2 ^ 30) (p : ConnPair) {reqs : List CanonicalRequest}
    (hUnread : h.buf.unread h.mem = reqs.flatMap CanonicalRequest.bytes) :
    SendsVerbatim junk h p reqs ↔
      ∀ i x, reqs[i]? = some x → ∃ res, ChainReturns (junk (p.handed.length + i)) (2 * x.lines.length + 3) res := by
  obtain ⟨hAll, hNone⟩ := (ready_of_zeroed hZero).pipeline (fun n w _ => takesEveryByte_eq n w) junk p
    (hUnread.trans (flatMap_canonical reqs)) hSize
  rw [← chainsReturn_canonical]
  constructor
  · rintro ⟨h', p', hReturns, -⟩
    by_contra hNot
    exact nomatch hReturns.unique (hNone hNot)
  · intro hReturn
    obtain ⟨h', p', hReturns, hPasses, -⟩ := hAll hReturn
    refine ⟨h', p', hReturns, by rw [hPasses.calls, List.length_map], ?_, ?_⟩
    · rw [hPasses.handed, List.length_append, List.length_map, List.length_map]
    · rw [hPasses.written, List.flatMap_map]
      simp only [CanonicalRequest.text_sent]

/-- The request `GET / HTTP/1.1` with the header `A: c`. -/
def getRequest : CanonicalRequest where
  method := ofChars ['G', 'E', 'T']
  path := []
  major := one
  minor := one
  lines := [⟨[upperA], [99], by decide, List.forall_mem_singleton.mpr (by decide), by decide,
    List.forall_mem_singleton.mpr (by decide), by decide, by decide⟩]
  method_ne := (plainLine true).method_ne
  method_byte := (plainLine true).method_byte
  path_byte := List.forall_mem_nil _
  path_unmarked := by decide
  major_digit := major_one
  minor_digit := digit_one
  lines_ne := by simp

theorem getRequest_unread : (Head.received getRequest.bytes).buf.unread (Head.received getRequest.bytes).mem =
    [getRequest].flatMap CanonicalRequest.bytes := by
  rw [Head.received_unread, List.flatMap_singleton]

/-- The link behind the chain leads to a block without bytes, whose link is NULL. -/
def staleLinks (_ i : Nat) : LtChain := ⟨⟨0, 0⟩, if i = 4 then some 9 else none, 0⟩

theorem sendsVerbatim_iff_getRequest :
    SendsVerbatim staleLinks (.received getRequest.bytes) httpInitConnection [getRequest] := by
  refine (sendsVerbatim_iff staleLinks rfl (by decide) httpInitConnection getRequest_unread).mpr fun i x hx => ?_
  obtain rfl := List.mem_singleton.mp (List.mem_of_getElem? hx)
  have hEnd : chainEnd (staleLinks 0) 5 = some .lok := by decide
  exact ⟨.lok, hEnd, fun _ => by decide⟩

/-- A chain that ends in a circle. -/
theorem not_sendsVerbatim :
    ¬ ∀ (junk : Nat → Nat → LtChain) (h : Head) (p : ConnPair) (reqs : List CanonicalRequest), h.req = {} →
      h.buf.last - h.buf.pos < 2 ^ 30 → reqs ≠ [] →
      h.buf.unread h.mem = reqs.flatMap CanonicalRequest.bytes → SendsVerbatim junk h p reqs := by
  intro hClaim
  obtain ⟨h', p', hReturns, -⟩ := hClaim (fun _ _ => ⟨⟨0, 0⟩, some 0, 0⟩) (.received getRequest.bytes)
    httpInitConnection [getRequest] rfl (by decide) (by simp) getRequest_unread
  obtain ⟨-, hNone⟩ := (ready_of_zeroed rfl).pipeline (fun n w _ => takesEveryByte_eq n w)
    (fun _ _ => ⟨⟨0, 0⟩, some 0, 0⟩) httpInitConnection (getRequest_unread.trans (flatMap_canonical _)) (by decide)
  refine absurd (hReturns.unique (hNone fun hAll => ?_)) nofun
  obtain ⟨res, hEnd, -⟩ := hAll 0 _ rfl
  exact nomatch hEnd

end Leactor
