import Leactor.Http.Relay

/-! Which headers are processed as the host: the hash that the parser computes
over a name against the hash that the worker computes over its constant. -/
namespace Leactor

open Ascii Scan Loop Memory

/-- The string that `http_process_element` hands to `http_process_host`. -/
def handedHost (element : LtHttpHeaderElement) : Option LtString :=
  if element.hash = hostHash then some element.value else none

/-- The element that the header loop makes of the line the parser has read. -/
def RequestT.newElement (r : RequestT) (next : Option Nat) : LtHttpHeaderElement where
  hash := r.headerHash
  length := 0
  key := ⟨ptrDiff r.headerNameEnd r.headerNameStart, r.headerNameStart⟩
  value := ⟨ptrDiff r.headerEnd r.headerStart, r.headerStart⟩
  lowcaseKey := ⟨ptrDiff r.headerNameEnd r.headerNameStart, r.headerNameStart⟩
  next := next

/-- What a turn of the header loop hands to `http_process_host`. -/
def turnHosts : Head × Option Nat → List LtString := fun (h, _) =>
  let (rc, r, _) := ngxHttpParseHeaderLine h.mem h.req h.buf true
  match rc with
  | .lok => if r.invalidHeader ≠ 0 then [] else (handedHost (r.newElement none)).toList
  | _ => []

/-- The parser accepts a request line or a status line; the header loop begins in `g`. -/
def HeadLineRead (h g : Head) : Prop :=
  (∃ r b, ngxHttpParseRequestLine h.mem h.req h.buf = (.lok, r, b) ∧
    g = { h with req := httpRequestLineParsed r b, buf := b }) ∨
  ∃ r b status, ngxHttpParseStatusLine h.mem h.req h.buf h.req.status = (.lok, r, b, status) ∧
    g = { h with req := storeStatusLine r status, buf := b }

namespace HeaderText

def IsHost (l : HeaderText) : Prop := l.name.map tolower = ofChars ['h', 'o', 's', 't']

def nameCode (w : List UInt8) : Nat := w.foldl (fun n c => n * 31 + (tolower c).toNat) 0

/-- The number of the name is that of `Host`, with the NUL, modulo `2 ^ 32`. -/
def Collides (l : HeaderText) : Prop := nameCode l.name % 2 ^ 32 = 69914424

def valueString (l : HeaderText) (p : Nat) : LtString := ⟨l.value.length, p + l.valueOffset⟩

end HeaderText

/-- What was handed to `http_process_host` are the values of the lines named host, and
of no others. -/
structure HandsHosts (handed : List LtString) (placed : List (Nat × HeaderText)) : Prop where
  value : ∀ s ∈ handed, ∃ f ∈ placed, s = f.2.valueString f.1
  host : ∀ f ∈ placed, f.2.valueString f.1 ∈ handed ↔ f.2.IsHost

/-- `http_process_element` works on what it hands over, and on nothing else. -/
theorem httpProcessElement_handed (mem : Mem) (r : RequestT) (e : LtHttpHeaderElement) :
    httpProcessElement mem r e = match handedHost e with
      | none => (mem, { e with length := r.headerLength })
      | some host => ((httpProcessHost mem host).2.1,
          { e with length := r.headerLength, value := (httpProcessHost mem host).2.2 }) := by
  unfold httpProcessElement handedHost
  by_cases hHash : e.hash = hostHash
  · simp only [hHash, if_true]
  · simp only [hHash, if_false]

/-- The element of a turn is processed by `http_process_element`. -/
theorem Head.addElement_mem (h : Head) (prev : Option Nat) :
    (h.addElement prev).1.mem =
      (httpProcessElement (lowcaseKeyCopyFromOrigin h.mem (h.req.newElement none).key).1 h.req
        (h.req.newElement (if h.req.elementHead = none then (h.elements.junk h.elements.fresh).next
          else none))).1 := rfl

theorem nameHash_eq (w : List UInt8) : (nameHash w).toNat = HeaderText.nameCode w % 2 ^ 32 := by
  unfold nameHash HeaderText.nameCode
  induction w using List.reverseRecOn with
  | nil => rfl
  | append_singleton w c ih =>
      rw [List.foldl_append, List.foldl_append, List.foldl_cons, List.foldl_cons, List.foldl_nil,
        List.foldl_nil, ngxHash, UInt32.toNat_add, UInt32.toNat_mul, ih]
      simp [Nat.add_mod, Nat.mul_mod]

namespace HeaderText

/-- The code takes exactly the colliding names for the host. -/
theorem namesHost_iff (l : HeaderText) : l.NamesHost ↔ l.Collides := by
  have hHost : hostHash.toNat = 69914424 := by decide
  unfold NamesHost Collides
  rw [← UInt32.toNat_inj, nameHash_eq, hHost]

example : nameCode (ofChars ['z', 'u', 'x', 'g', 'r', 'x', 'h']) % 2 ^ 32 = 69914424 := by decide

/-- The name `host` does not collide: the constant was hashed with a capital and with its NUL. -/
theorem IsHost.not_namesHost {l : HeaderText} (h : l.IsHost) : ¬ l.NamesHost := by
  unfold NamesHost
  rw [← nameHash_tolower, h]
  decide

end HeaderText

/-- The header loop begins in the state 0, whatever state the line was resumed in. -/
theorem HeadLineRead.state {h g : Head} (hLine : HeadLineRead h g) : g.req.state = 0 := by
  rcases hLine with ⟨r, b, hParse, rfl⟩ | ⟨r, b, status, hParse, rfl⟩
  · have hState := ngxHttpParseRequestLine_state hParse
    unfold httpRequestLineParsed
    simp only
    split_ifs <;> exact hState
  · rw [ngxHttpParseStatusLine] at hParse
    simp only [storeStatusLine]
    split at hParse
    · exact absurd (congrArg Prod.fst hParse) Res.noConfusion
    · split at hParse
      · exact absurd (congrArg Prod.fst hParse) Res.noConfusion
      · exact absurd (congrArg Prod.fst hParse) Res.noConfusion
      · obtain ⟨-, rfl, -⟩ := (Prod.mk.injEq _ _ _ _).mp hParse
        rfl

/-- The values of the lines that the code takes for the host. -/
def handedLines (p : Nat) (lines : List (List UInt8 × HeaderText)) : List LtString :=
  ((placedLines p lines).filter fun f => decide f.2.NamesHost).map fun f => f.2.valueString f.1

theorem handedLines_cons (p : Nat) (skip : List UInt8) (l : HeaderText)
    (lines : List (List UInt8 × HeaderText)) :
    handedLines p ((skip, l) :: lines) =
      (if l.Valid ∧ l.NamesHost then [l.valueString (p + skip.length)] else []) ++
        handedLines (p + skip.length + l.bytes.length) lines := by
  rw [handedLines, placedLines, List.filter_append, List.map_append]
  congr 1
  by_cases hValid : l.Valid
  · by_cases hNames : l.NamesHost
    · simp [hValid, hNames]
    · simp [hValid, hNames]
  · simp [hValid]

/-- A turn over a line hands over the value if the name has the hash of the host. -/
theorem turnHosts_line {h : Head} (prev : Option Nat) {skip rest : List UInt8} (l : HeaderText)
    (hState : h.req.state = 0) (hUnread : h.buf.unread h.mem = skip ++ (l.bytes ++ rest))
    (hSkip : Skipped h.req.upstream skip) (hReply : h.req.upstream ≠ 0 → ¬ l.StartsReply)
    (hBound : l.bytes.length < 2 ^ 31) :
    turnHosts (h, prev) =
      if l.Valid ∧ l.NamesHost then [l.valueString (h.buf.pos + skip.length)] else [] := by
  obtain ⟨r', hParse, hReads⟩ := ngxHttpParseHeaderLine_line l hState hUnread hSkip hReply
  have hEnd := l.value_end_le
  have hLength : ptrDiff r'.headerEnd r'.headerStart = l.value.length := by
    rw [hReads.valueEnd, hReads.valueStart, ptrDiff_of_le (by omega) (by omega), Nat.add_sub_cancel_left]
  simp only [turnHosts, hParse]
  by_cases hValid : l.Valid
  · have hHanded : handedHost (r'.newElement none) =
        if l.NamesHost then some (l.valueString (h.buf.pos + skip.length)) else none := by
      rw [handedHost, RequestT.newElement, hLength, hReads.hash hValid, hReads.valueStart]
      rfl
    rw [if_neg (not_not.mpr (hReads.invalid.mpr hValid)), hHanded]
    by_cases hNames : l.NamesHost
    · rw [if_pos hNames, if_pos ⟨hValid, hNames⟩]
      rfl
    · rw [if_neg hNames, if_neg fun hBoth => hNames hBoth.2]
      rfl
  · rw [if_pos (mt hReads.invalid.mp hValid), if_neg fun hBoth => hValid hBoth.1]

/-- The turn that leaves the loop hands over nothing. -/
theorem turnHosts_of_exit {h h' : Head} {prev : Option Nat} (hTurn : headerTurn (h, prev) = .exit h') :
    turnHosts (h, prev) = [] := by
  unfold headerTurn at hTurn
  unfold turnHosts
  cases hParse : ngxHttpParseHeaderLine h.mem h.req h.buf true with
  | mk rc rest =>
      simp only [hParse] at hTurn ⊢
      split at hTurn
      · split_ifs at hTurn
      · rfl
      · cases hTurn

/-- Over a header block the loop hands over the values of the lines it takes for the host. -/
theorem headerLoop_hosts {h : Head} (prev : Option Nat) {rest : List UInt8} (blk : HeaderBlock)
    (hState : h.req.state = 0) (hUnread : h.buf.unread h.mem = blk.bytes ++ rest)
    (hRead : blk.Readable h.req.upstream) (hBound : blk.bytes.length < 2 ^ 31) :
    ∃ h', ReturnsWith headerTurn turnHosts (h, prev) h' (handedLines h.buf.pos blk.lines) := by
  have hLength : (HeaderBlock.linesBytes blk.lines).length < 2 ^ 31 := by
    simp only [HeaderBlock.bytes, List.length_append] at hBound
    omega
  refine (headerLoop_rule
    (I := fun lines g q => (HeaderBlock.linesBytes lines).length < 2 ^ 31 ∧
      ∃ done, ReachesWith headerTurn turnHosts (h, prev) (g, q) done ∧
        done ++ handedLines g.buf.pos lines = handedLines h.buf.pos blk.lines)
    (Q := fun h' => ReturnsWith headerTurn turnHosts (h, prev) h' (handedLines h.buf.pos blk.lines))
    ?_ ?_ prev blk hState hUnread hRead ⟨hLength, [], .refl _, rfl⟩).imp fun _ hAll => hAll.2.2
  · rintro g g' q q' skip rest l lines hs hu hSkip hReply hTurn hFrame ⟨hShort, done, hDone, hAll⟩
    rw [HeaderBlock.linesBytes_cons, List.length_append, List.length_append] at hShort
    have hHosts := turnHosts_line q l hs hu hSkip hReply (by omega)
    have hStep : ReachesWith headerTurn turnHosts (g, q) (g', q') (turnHosts (g, q) ++ []) :=
      .head hTurn (.refl _)
    refine ⟨by omega, _, hDone.trans hStep, ?_⟩
    rw [← hAll, handedLines_cons, hHosts, hFrame.buf, List.append_nil, List.append_assoc]
  · rintro g q r' pos hTurn - ⟨-, done, hDone, hAll⟩
    have hEnd := hDone.returns (.of_exit hTurn)
    rwa [turnHosts_of_exit hTurn, ← show handedLines g.buf.pos [] = [] from rfl, hAll] at hEnd

/-- The value of a line tells the line. -/
theorem valueString_inj {p : Nat} {lines : List (List UInt8 × HeaderText)} {f g : Nat × HeaderText}
    (hf : f ∈ placedLines p lines) (hg : g ∈ placedLines p lines)
    (hSame : f.2.valueString f.1 = g.2.valueString g.1) : f = g := by
  rw [HeaderText.valueString, HeaderText.valueString, LtString.mk.injEq] at hSame
  have hFirst := f.2.value_end_le
  have hSecond := g.2.value_end_le
  rcases placedLines_apart hf hg with hEq | hApart | hApart
  · exact hEq
  · omega
  · omega

/-- What is handed over are the host's values exactly if hash and name agree on every line. -/
theorem handsHosts_handedLines (p : Nat) (lines : List (List UInt8 × HeaderText)) :
    HandsHosts (handedLines p lines) (placedLines p lines) ↔
      ∀ f ∈ placedLines p lines, ¬ f.2.IsHost ∧ ¬ f.2.Collides := by
  have hMem : ∀ f ∈ placedLines p lines, f.2.valueString f.1 ∈ handedLines p lines ↔ f.2.NamesHost := by
    intro f hf
    rw [handedLines, List.mem_map]
    constructor
    · rintro ⟨g, hg, hSame⟩
      rw [List.mem_filter, decide_eq_true_eq] at hg
      rw [← valueString_inj hg.1 hf hSame]
      exact hg.2
    · intro hNames
      exact ⟨f, List.mem_filter.mpr ⟨hf, decide_eq_true hNames⟩, rfl⟩
  constructor
  · intro hHands f hf
    have hIff := (hMem f hf).symm.trans (hHands.host f hf)
    have hNot : ¬ f.2.IsHost := fun hHost => hHost.not_namesHost (hIff.mpr hHost)
    exact ⟨hNot, fun hCollides => hNot (hIff.mp (f.2.namesHost_iff.mpr hCollides))⟩
  · intro hNone
    constructor
    · intro s hs
      obtain ⟨f, hf, rfl⟩ := List.mem_map.mp hs
      exact ⟨f, List.mem_of_mem_filter hf, rfl⟩
    · intro f hf
      obtain ⟨hHost, hCollides⟩ := hNone f hf
      rw [hMem f hf, f.2.namesHost_iff]
      exact iff_of_false hCollides hHost

/-- The hosts are handed on from exactly the heads with no header named host, and none
whose name collides. The header loop is followed through its own runs, behind any
request line that was read before. -/
theorem handsHosts_iff {h g h' : Head} {handed : List LtString} (hLine : HeadLineRead h g)
    (hBound : g.buf.last - g.buf.pos < 2 ^ 31)
    (hRun : ReturnsWith headerTurn turnHosts (g.clearElements, none) h' handed) :
    (∃ (blk : HeaderBlock) (rest : List UInt8),
      g.buf.unread g.mem = blk.bytes ++ rest ∧ blk.Readable g.req.upstream) ∧
    ∀ (blk : HeaderBlock) (rest : List UInt8), g.buf.unread g.mem = blk.bytes ++ rest →
      blk.Readable g.req.upstream →
      (HandsHosts handed (placedLines g.buf.pos blk.lines) ↔
        ∀ f ∈ placedLines g.buf.pos blk.lines, ¬ f.2.IsHost ∧ ¬ f.2.Collides) := by
  have hState := hLine.state
  constructor
  · obtain ⟨n, hn, -⟩ := hRun
    obtain ⟨blk, rest, hUnread, hRead⟩ := headersRead_of_returns hState hBound ⟨n, hn⟩
    exact ⟨blk, rest, hUnread, hRead.readable⟩
  · intro blk rest hUnread hRead
    have hLength := congrArg List.length hUnread
    rw [LtBuffer.unread, length_slice, List.length_append] at hLength
    obtain ⟨h₁, hRun₁⟩ := headerLoop_hosts (h := g.clearElements) none blk hState hUnread hRead (by omega)
    obtain ⟨-, rfl⟩ := hRun.unique hRun₁
    exact handsHosts_handedLines _ _

/-- A request of the line `GET / HTTP/1.0` and the block `blk`, up to the header loop. -/
theorem plainLine_read (crlf : Bool) {blk : HeaderBlock} (hRead : blk.Readable 0)
    (hBound : blk.bytes.length < 2 ^ 31) :
    ∃ g h', HeadLineRead (.received ((plainLine crlf).bytes ++ blk.bytes)) g ∧
      g.buf.unread g.mem = blk.bytes ++ [] ∧ g.buf.last - g.buf.pos < 2 ^ 31 ∧ blk.Readable g.req.upstream ∧
      ReturnsWith headerTurn turnHosts (g.clearElements, none) h' (handedLines g.buf.pos blk.lines) := by
  have hUnread := plainLine_unread crlf blk
  obtain ⟨-, r, b, hParse, -⟩ := plainLine_accepted crlf hRead hBound
  generalize hHead : Head.received ((plainLine crlf).bytes ++ blk.bytes) = h at hUnread hParse
  have hReq : h.req = {} := by rw [← hHead]; rfl
  obtain ⟨q, hReads, hText⟩ := ngxHttpParseRequestLine_text (r := h.req) (plainLine crlf) (by rw [hReq]) hUnread
  have hStored := httpRequestLineParsed_stored
    { h.buf with pos := h.buf.pos + (plainLine crlf).bytes.length } hReads (by cases crlf <;> decide)
  have hLine : HeadLineRead h { h with req := httpRequestLineParsed r b, buf := b } := .inl ⟨r, b, hParse, rfl⟩
  rw [hParse, Prod.mk.injEq, Prod.mk.injEq] at hText
  obtain ⟨-, rfl, rfl⟩ := hText
  have hBlock := (slice_eq_append hUnread).2
  have hLength := congrArg List.length hBlock
  rw [length_slice, List.append_nil] at hLength
  have hReadable : blk.Readable (httpRequestLineParsed
      (requestLineDone (h.buf.pos + (plainLine crlf).bytes.length - 1) q).2
      { h.buf with pos := h.buf.pos + (plainLine crlf).bytes.length }).upstream := by
    rwa [hStored.upstream, hReq]
  obtain ⟨h', hRun⟩ := headerLoop_hosts (h := Head.clearElements { h with
      req := httpRequestLineParsed (requestLineDone (h.buf.pos + (plainLine crlf).bytes.length - 1) q).2
        { h.buf with pos := h.buf.pos + (plainLine crlf).bytes.length }
      buf := { h.buf with pos := h.buf.pos + (plainLine crlf).bytes.length } })
    none blk hStored.state hBlock hReadable hBound
  exact ⟨_, h', hLine, hBlock, by simp only; omega, hReadable, hRun⟩

def hostHeader : HeaderText where
  first := upperH
  rest := [111, 115, 116]
  field := some ⟨1, [97], 0, List.forall_mem_singleton.mpr (by decide), by decide, by decide, by decide⟩
  crs := 1
  first_plain := by decide
  rest_plain := by
    simp only [List.forall_mem_cons]
    exact ⟨by decide, by decide, by decide, List.forall_mem_nil _⟩

def hostBlock : HeaderBlock where
  lines := [([], hostHeader)]
  skip := []
  blank := true

theorem hostBlock_readable (upstream : Nat) : hostBlock.Readable upstream := by
  refine ⟨?_, .nil⟩
  simp only [hostBlock, List.mem_singleton, forall_eq]
  refine ⟨.nil, fun _ => ?_⟩
  simp [HeaderText.StartsReply, HeaderText.name, hostHeader, replyMark, ofChars]

/-- The header `Host: a` is not processed as the host. -/
theorem not_handsHosts :
    ¬ ∀ (h g h' : Head) (handed : List LtString) (blk : HeaderBlock) (rest : List UInt8),
      HeadLineRead h g → g.buf.last - g.buf.pos < 2 ^ 31 →
      ReturnsWith headerTurn turnHosts (g.clearElements, none) h' handed →
      g.buf.unread g.mem = blk.bytes ++ rest → blk.Readable g.req.upstream →
      HandsHosts handed (placedLines g.buf.pos blk.lines) := by
  intro hClaim
  obtain ⟨g, h', hLine, hUnread, hBound, hRead, hRun⟩ := plainLine_read true (hostBlock_readable 0) (by decide)
  have hHands := hClaim _ g h' _ hostBlock [] hLine hBound hRun hUnread hRead
  have hValid : hostHeader.Valid := by decide
  have hMem : (g.buf.pos + 0, hostHeader) ∈ placedLines g.buf.pos hostBlock.lines := by
    rw [hostBlock, placedLines, if_pos hValid]
    exact List.mem_cons_self
  have hHost : hostHeader.IsHost := by
    unfold HeaderText.IsHost
    decide
  exact ((handsHosts_handedLines _ _).mp hHands _ hMem).1 hHost

/-- The head of the one header `A: b`. -/
theorem handsHosts_iff_plainBlock : ∃ g h' handed, HeadLineRead (plainRequest true) g ∧
    ReturnsWith headerTurn turnHosts (g.clearElements, none) h' handed ∧
    ∀ (blk : HeaderBlock) (rest : List UInt8), g.buf.unread g.mem = blk.bytes ++ rest →
      blk.Readable g.req.upstream →
      (HandsHosts handed (placedLines g.buf.pos blk.lines) ↔
        ∀ f ∈ placedLines g.buf.pos blk.lines, ¬ f.2.IsHost ∧ ¬ f.2.Collides) := by
  obtain ⟨g, h', hLine, -, hBound, -, hRun⟩ := plainLine_read true (plainBlock_readable true 0) (by decide)
  exact ⟨g, h', _, hLine, hRun, (handsHosts_iff hLine hBound hRun).2⟩

end Leactor
