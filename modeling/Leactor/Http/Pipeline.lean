import Leactor.Http.HeaderLoop
import Leactor.Parse.RequestView

/-! `http_process_request_line` with its recursion over pipelined requests. The
function is a loop whose turns are the parser calls: one for a request line,
then those of the header loop. Building the chain and `http_send_to_upstream`
stand between two requests. -/
namespace Leactor

open Ascii Scan Loop Memory

variable {ω : Type*}

inductive Phase where
  | requestLine
  | headers (prev : Option Nat)

/-- One turn of `http_process_request_line`. `send` builds the chain of a
finished request and hands it to `http_send_to_upstream`; `none` is undefined
behaviour there. -/
def requestTurn (send : Head → ω → Option ω) :
    Phase × Head × ω → Turn (Phase × Head × ω) (Option (Res × Head × ω))
  | (.requestLine, h, w) =>
      let (rv, r, b) := ngxHttpParseRequestLine h.mem h.req h.buf
      let h := { h with req := r, buf := b }
      if rv = .lok then
        .again (.headers none, ({ h with req := httpRequestLineParsed r b } : Head).clearElements, w)
      else .exit (some (rv, h, w))
  | (.headers prev, h, w) =>
      match headerTurn (h, prev) with
      | .again (h', prev') => .again (.headers prev', h', w)
      | .exit h' =>
          match send h' w with
          | some w' => .again (.requestLine, h', w')
          | none => .exit none

/-- `http_process_request_line` within a number of turns. -/
def httpProcessRequestLine (send : Head → ω → Option ω) (fuel : Nat) (h : Head) (w : ω) :
    Turn (Phase × Head × ω) (Option (Res × Head × ω)) :=
  iterate (requestTurn send) fuel (.requestLine, h, w)

/-- Given turns enough, the function comes back as its loop does. -/
theorem httpProcessRequestLine_returns_iff {send : Head → ω → Option ω} {h : Head} {w : ω}
    {r : Option (Res × Head × ω)} :
    (∃ fuel, ∀ n, fuel ≤ n → httpProcessRequestLine send n h w = .exit r) ↔
      Returns (requestTurn send) (.requestLine, h, w) r :=
  returns_iff_eventually.symm

/-- Every request line that is accepted, from `b` on, has its header block in the buffer. -/
inductive HeadsComplete (mem : Mem) : RequestT → LtBuffer → Prop where
  | stop {r : RequestT} {b : LtBuffer} (h : (ngxHttpParseRequestLine mem r b).1 ≠ .lok) :
      HeadsComplete mem r b
  | head {r r' : RequestT} {b b' : LtBuffer} (blk : HeaderBlock)
      (hLine : ngxHttpParseRequestLine mem r b = (.lok, r', b'))
      (hRead : blk.Readable r'.upstream) (hBlock : blk.bytes <+: b'.unread mem)
      (hRest : HeadsComplete mem r' { b' with pos := b'.pos + blk.bytes.length }) :
      HeadsComplete mem r b

theorem httpRequestLineParsed_lineView (r : RequestT) (b : LtBuffer) :
    (httpRequestLineParsed r b).lineView = r.lineView := by
  simp only [httpRequestLineParsed]
  split_ifs <;> rfl

theorem httpRequestLineParsed_state (r : RequestT) (b : LtBuffer) :
    (httpRequestLineParsed r b).state = r.state := by
  simp only [httpRequestLineParsed]
  split_ifs <;> rfl

theorem httpRequestLineParsed_requestStart (r : RequestT) (b : LtBuffer) :
    (httpRequestLineParsed r b).requestStart = r.requestStart := by
  simp only [httpRequestLineParsed]
  split_ifs <;> rfl

theorem RequestT.lineView_of_forgetHead {r r' : RequestT} (h : r'.forgetHead = r.forgetHead) :
    r'.lineView = r.lineView := by
  have hView := congrArg RequestT.lineView h
  exact hView

theorem RequestT.upstream_of_lineView {r r' : RequestT} (h : r'.lineView = r.lineView) :
    r'.upstream = r.upstream := by
  have hField := congrArg RequestT.upstream h
  exact hField

section Turns

variable (send : Head → ω → Option ω) {h : Head} {w : ω}

/-- The header loop runs inside the pipeline as it runs alone. -/
theorem requestTurn_headers {prev : Option Nat} {h' : Head} {w' : ω}
    (hReturns : Returns headerTurn (h, prev) h') (hSend : send h' w = some w') :
    Reaches (requestTurn send) (.headers prev, h, w) (.requestLine, h', w') := by
  obtain ⟨n, hn⟩ := hReturns
  induction n generalizing h prev with
  | zero => cases hn
  | succ n ih =>
      rw [iterate] at hn
      cases hTurn : headerTurn (h, prev) with
      | again t =>
          rw [hTurn] at hn
          exact .head (by simp only [requestTurn, hTurn]) (ih hn)
      | exit g =>
          rw [hTurn] at hn
          cases hn
          exact .head (by simp only [requestTurn, hTurn, hSend]) (.refl _)

theorem requestTurn_undefined {prev : Option Nat} {h' : Head} (hReturns : Returns headerTurn (h, prev) h')
    (hSend : send h' w = none) : Returns (requestTurn send) (.headers prev, h, w) none := by
  obtain ⟨n, hn⟩ := hReturns
  induction n generalizing h prev with
  | zero => cases hn
  | succ n ih =>
      rw [iterate] at hn
      cases hTurn : headerTurn (h, prev) with
      | again t =>
          rw [hTurn] at hn
          exact (returns_again_iff (by simp only [requestTurn, hTurn])).mpr (ih hn)
      | exit g =>
          rw [hTurn] at hn
          cases hn
          exact returns_of_exit (by simp only [requestTurn, hTurn, hSend])

/-- A pipeline that leaves from inside a header loop left that loop before. The request
that was read is sent, and what is left of the turns begins at the next request line. -/
theorem iterate_headers_exit {prev : Option Nat} {n : Nat} {r : Option (Res × Head × ω)}
    (hn : iterate (requestTurn send) n (.headers prev, h, w) = .exit r) :
    ∃ h', Returns headerTurn (h, prev) h' ∧
      (send h' w = none ∨ ∃ w' m, send h' w = some w' ∧ m ≤ n ∧
        iterate (requestTurn send) m (.requestLine, h', w') = .exit r) := by
  induction n generalizing h prev with
  | zero => cases hn
  | succ n ih =>
      rw [iterate] at hn
      cases hTurn : headerTurn (h, prev) with
      | again t =>
          simp only [requestTurn, hTurn] at hn
          obtain ⟨h', hReturns, hRest⟩ := ih hn
          refine ⟨h', (returns_again_iff hTurn).mpr hReturns, ?_⟩
          rcases hRest with hNone | ⟨w', m, hSend, hm, hExit⟩
          · exact Or.inl hNone
          · exact Or.inr ⟨w', m, hSend, by omega, hExit⟩
      | exit g =>
          simp only [requestTurn, hTurn] at hn
          refine ⟨g, returns_of_exit hTurn, ?_⟩
          cases hSend : send g w with
          | none => exact Or.inl rfl
          | some w' =>
              rw [hSend] at hn
              exact Or.inr ⟨w', n, rfl, by omega, hn⟩

theorem requestTurn_accepted {r : RequestT} {b : LtBuffer}
    (hLine : ngxHttpParseRequestLine h.mem h.req h.buf = (.lok, r, b)) :
    requestTurn send (.requestLine, h, w) =
      .again (.headers none,
        ({ h with req := httpRequestLineParsed r b, buf := b } : Head).clearElements, w) := by
  simp only [requestTurn, hLine, if_true]

theorem requestTurn_stopped (hLine : (ngxHttpParseRequestLine h.mem h.req h.buf).1 ≠ .lok) :
    ∃ r, requestTurn send (.requestLine, h, w) = .exit r := by
  simp only [requestTurn, hLine, if_false]
  exact ⟨_, rfl⟩

end Turns

/-- The pipeline and the bytes it started from: the head at hand looks like
`r` and `b` to the parser, and the unread bytes are still those of `mem`. -/
structure Follows (mem : Mem) (r : RequestT) (b : LtBuffer) (h : Head) : Prop where
  state : h.req.state = 0
  origin : r.state = 0
  view : h.req.lineView = r.lineView
  buf : h.buf = b
  mem : ∀ x, b.pos ≤ x → h.mem x = mem x

/-- Both read the request line alike. -/
theorem Follows.line {mem : Mem} {r : RequestT} {b : LtBuffer} {h : Head} (hFollows : Follows mem r b h) :
    (ngxHttpParseRequestLine h.mem h.req h.buf).1 = (ngxHttpParseRequestLine mem r b).1 ∧
      (ngxHttpParseRequestLine h.mem h.req h.buf).2.1.lineView =
        (ngxHttpParseRequestLine mem r b).2.1.lineView ∧
      (ngxHttpParseRequestLine h.mem h.req h.buf).2.2 = (ngxHttpParseRequestLine mem r b).2.2 := by
  obtain ⟨hState, hOrigin, hView, rfl, hMem⟩ := hFollows
  exact ngxHttpParseRequestLine_view hState hOrigin hView hMem

/-- The position never moves back. -/
theorem ngxHttpParseRequestLine_pos_le {mem : Mem} {r r' : RequestT} {b b' : LtBuffer}
    (hState : r.state = 0) (h : ngxHttpParseRequestLine mem r b = (.lok, r', b')) :
    b.pos < b'.pos ∧ b'.pos ≤ b.last ∧ b' = { b with pos := b'.pos } := by
  obtain ⟨p, q, hRun, -, rfl⟩ := exists_run_of_lok hState h
  obtain ⟨xs, c, ys, t, hw, rfl, -⟩ := exists_prefix_of_halted hRun
  have hLength := congrArg List.length hw
  simp only [LtBuffer.unread, length_slice, List.length_append, List.length_cons] at hLength
  exact ⟨by simp only; omega, by simp only; omega, rfl⟩

/-- An accepted line and its header block lead to the next request. The line and the
block are those of the bytes that were received first, although names were put into
lower case since. -/
theorem Follows.next {mem : Mem} {r r' : RequestT} {b b' : LtBuffer} {h : Head}
    (hFollows : Follows mem r b h) (hLine : ngxHttpParseRequestLine mem r b = (.lok, r', b'))
    (blk : HeaderBlock) (hRead : blk.Readable r'.upstream) (hBlock : blk.bytes <+: b'.unread mem) :
    ∃ g h', ngxHttpParseRequestLine h.mem h.req h.buf = (.lok, g, b') ∧
      Returns headerTurn
        (({ h with req := httpRequestLineParsed g b', buf := b' } : Head).clearElements, none) h' ∧
      Follows mem r' { b' with pos := b'.pos + blk.bytes.length } h' := by
  obtain ⟨hRes, hReq, hBuf⟩ := hFollows.line
  obtain ⟨hPos, -, -⟩ := ngxHttpParseRequestLine_pos_le hFollows.origin hLine
  rw [hLine] at hRes hReq hBuf
  generalize hCall : ngxHttpParseRequestLine h.mem h.req h.buf = call at hRes hReq hBuf
  obtain ⟨rc, g, gb⟩ := call
  simp only at hRes hReq hBuf
  subst hRes hBuf
  have hState := ngxHttpParseRequestLine_state hCall
  obtain ⟨rest, hRest⟩ := hBlock
  generalize hBegin : (({ h with req := httpRequestLineParsed g gb, buf := gb } : Head).clearElements) = h₀
  have hReq₀ : h₀.req.lineView = g.lineView := by
    rw [← hBegin]
    exact httpRequestLineParsed_lineView g gb
  have hBuf₀ : h₀.buf = gb := by rw [← hBegin]; rfl
  have hMem₀ : ∀ x, gb.pos ≤ x → h₀.mem x = mem x := by
    intro x hx
    rw [← hBegin]
    exact hFollows.mem x (by omega)
  have hState₀ : h₀.req.state = 0 := by
    rw [← hBegin]
    exact (httpRequestLineParsed_state g gb).trans hState
  have hUnread : h₀.buf.unread h₀.mem = blk.bytes ++ rest := by
    rw [hRest, hBuf₀]
    exact slice_congr fun x hx _ => hMem₀ x hx
  have hUpstream : h₀.req.upstream = r'.upstream :=
    RequestT.upstream_of_lineView (hReq₀.trans hReq)
  obtain ⟨h', hReturns, hFrame⟩ := headerLoop_returns none blk hState₀ hUnread
    (by rwa [hUpstream])
  refine ⟨g, h', rfl, by rwa [hBegin], hFrame.state,
    ngxHttpParseRequestLine_state hLine, ?_, ?_, ?_⟩
  · exact (RequestT.lineView_of_forgetHead hFrame.req).trans (hReq₀.trans hReq)
  · rw [hFrame.buf, hBuf₀]
  · intro x hx
    simp only at hx
    rw [hFrame.mem x (by rw [hBuf₀]; exact hx)]
    exact hMem₀ x (by omega)

/-- Complete heads make the pipeline leave. -/
theorem Follows.terminates (send : Head → ω → ω) {mem : Mem} {r : RequestT} {b : LtBuffer} {h : Head}
    {w : ω} (hFollows : Follows mem r b h) (hComplete : HeadsComplete mem r b) :
    Terminates (requestTurn fun h w => some (send h w)) (.requestLine, h, w) := by
  induction hComplete generalizing h w with
  | stop hStop =>
      obtain ⟨result, hTurn⟩ := requestTurn_stopped (fun h w => some (send h w)) (w := w)
        (by rwa [hFollows.line.1])
      exact ⟨result, returns_of_exit hTurn⟩
  | head blk hLine hRead hBlock _ ih =>
      obtain ⟨g, h', hCall, hReturns, hNext⟩ := hFollows.next hLine blk hRead hBlock
      obtain ⟨result, hResult⟩ := ih (w := send h' w) hNext
      have hReach := requestTurn_headers (fun h w => some (send h w)) (w := w) hReturns rfl
      exact ⟨result, (returns_again_iff (requestTurn_accepted _ hCall)).mpr (hReach.returns hResult)⟩

/-- A pipeline that leaves has found every head complete. The induction is on the number
of turns, over all requests that are left in the buffer. -/
theorem Follows.complete (send : Head → ω → ω) {mem : Mem} {r : RequestT} {b : LtBuffer} {h : Head}
    {w : ω} (hFollows : Follows mem r b h)
    (hTerminates : Terminates (requestTurn fun h w => some (send h w)) (.requestLine, h, w)) :
    HeadsComplete mem r b := by
  obtain ⟨result, n, hn⟩ := hTerminates
  induction n using Nat.strong_induction_on generalizing r b h w with
  | _ n ih =>
      generalize hLine : ngxHttpParseRequestLine mem r b = call
      obtain ⟨rc, r', b'⟩ := call
      by_cases hLok : rc = .lok
      · subst hLok
        obtain ⟨hRes, hReq, hBuf⟩ := hFollows.line
        rw [hLine] at hRes hReq hBuf
        generalize hCall : ngxHttpParseRequestLine h.mem h.req h.buf = call at hRes hReq hBuf
        obtain ⟨rc, g, gb⟩ := call
        simp only at hRes hReq hBuf
        subst hRes hBuf
        cases n with
        | zero => cases hn
        | succ n =>
            rw [iterate, requestTurn_accepted _ hCall] at hn
            obtain ⟨h', hReturns, hRest⟩ := iterate_headers_exit _ hn
            obtain ⟨hPos, -, -⟩ := ngxHttpParseRequestLine_pos_le hFollows.origin hLine
            have hState₀ : (httpRequestLineParsed g gb).state = 0 :=
              (httpRequestLineParsed_state g gb).trans
                (ngxHttpParseRequestLine_state hCall)
            have hBegins := beginsWithBlock_of_terminates
              (h := ({ h with req := httpRequestLineParsed g gb, buf := gb } : Head).clearElements)
              hState₀ ⟨h', hReturns⟩
            have hUpstream : (httpRequestLineParsed g gb).upstream = r'.upstream :=
              RequestT.upstream_of_lineView ((httpRequestLineParsed_lineView g gb).trans hReq)
            have hUnread : gb.unread h.mem = gb.unread mem :=
              slice_congr fun x hx _ => hFollows.mem x (by omega)
            obtain ⟨blk, hRead, hBlock⟩ : BeginsWithBlock (httpRequestLineParsed g gb).upstream
              (gb.unread h.mem) := hBegins
            rw [hUpstream] at hRead
            rw [hUnread] at hBlock
            obtain ⟨g', h'', hCall', hReturns', hNext⟩ := hFollows.next hLine blk hRead hBlock
            rw [hCall] at hCall'
            simp only [Prod.mk.injEq, true_and, and_true] at hCall'
            subst hCall'
            have hSame := hReturns.unique hReturns'
            subst hSame
            rcases hRest with hNone | ⟨w', m, hSend, hm, hExit⟩
            · cases hNone
            · exact .head blk hLine hRead hBlock (ih m (by omega) hNext hExit)
      · exact .stop (by rw [hLine]; exact hLok)

def cutHead : Head :=
  .received (ofChars ['G', 'E', 'T', ' ', '/', ' ', 'H', 'T', 'T', 'P', '/', '1', '.', '0'] ++ [cr, lf])

theorem cutHead_line :
    (ngxHttpParseRequestLine cutHead.mem cutHead.req cutHead.buf).1 = .lok ∧
      (ngxHttpParseRequestLine cutHead.mem cutHead.req cutHead.buf).2.2.pos = cutHead.buf.last := by
  decide +kernel

theorem HeaderBlock.bytes_ne_nil (blk : HeaderBlock) : blk.bytes ≠ [] := by
  cases hBlank : blk.blank <;> simp [HeaderBlock.bytes, lineBreak, hBlank]

theorem cutHead_not_complete : ¬ HeadsComplete cutHead.mem cutHead.req cutHead.buf := by
  intro hComplete
  cases hComplete with
  | stop hStop => exact hStop cutHead_line.1
  | @head _ r' _ b' blk hLine hRead hBlock _ =>
      have hPos := cutHead_line.2
      rw [hLine] at hPos
      obtain ⟨-, -, hKeep⟩ := ngxHttpParseRequestLine_pos_le (by rfl) hLine
      have hUnread : b'.unread cutHead.mem = [] := by
        rw [hKeep, LtBuffer.unread]
        exact slice_of_le (le_of_eq hPos.symm)
      rw [hUnread, List.prefix_nil] at hBlock
      exact blk.bytes_ne_nil hBlock

end Leactor
