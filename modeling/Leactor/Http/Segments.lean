import Leactor.Http.Verbatim
import Leactor.Net.Delivery

/-! The batches of a client: `http_data_coming` reads each of them into a buffer and a
request of its own, and hands on the requests that end in it. -/
namespace Leactor

open Ascii Scan Loop Memory

section Rows

variable {α β : Type*}

/-- A row that is a map's image consists of images. -/
theorem exists_groups (f : α → β) {xs : List α} {yss : List (List β)} (h : xs.map f = yss.flatten) :
    ∃ groups : List (List α), groups.flatten = xs ∧ groups.map (List.map f) = yss := by
  induction yss generalizing xs with
  | nil => exact ⟨[], (List.map_eq_nil_iff.mp h).symm, rfl⟩
  | cons ys yss ih =>
      obtain ⟨us, vs, rfl, rfl, hRest⟩ := List.map_eq_append_iff.mp h
      obtain ⟨groups, rfl, rfl⟩ := ih hRest
      exact ⟨us :: groups, rfl, rfl⟩

/-- Parts that are not longer than others and make up the same whole are the others. -/
theorem eq_of_flatten_eq {xss yss : List (List α)} (h : List.Forall₂ (fun xs ys => xs.length ≤ ys.length) xss yss)
    (hEqual : xss.flatten = yss.flatten) : xss = yss := by
  induction h with
  | nil => rfl
  | @cons xs ys xss yss hHere hRest ih =>
      rw [List.flatten_cons, List.flatten_cons] at hEqual
      have hLater : xss.flatten.length ≤ yss.flatten.length := by
        rw [List.length_flatten, List.length_flatten]
        exact List.Forall₂.sum_le_sum (List.forall₂_map_left_iff.mpr (List.forall₂_map_right_iff.mpr hRest))
      have hLength := congrArg List.length hEqual
      rw [List.length_append, List.length_append] at hLength
      obtain ⟨rfl, hTail⟩ := List.append_inj hEqual (by omega)
      rw [ih hTail]

theorem exists_of_forall₂ {R : α → β → Prop} {xs : List α} {ys : List β} (h : List.Forall₂ R xs ys) {x : α}
    (hx : x ∈ xs) : ∃ y ∈ ys, R x y := by
  induction h with
  | nil => cases hx
  | @cons u v us vs hHere _ ih =>
      rcases List.mem_cons.mp hx with rfl | hx
      · exact ⟨v, List.mem_cons_self, hHere⟩
      · obtain ⟨y, hy, hRel⟩ := ih hx
        exact ⟨y, List.mem_cons_of_mem _ hy, hRel⟩

end Rows

/-- A connection pair, with the requests whose chains were built and handed to
`http_send_to_upstream`: their bytes, with the header names in lower case. -/
structure Handing where
  pair : ConnPair
  requests : List (List UInt8)

/-- What a wake-up of the client's socket meets: what it receives, the memory, and the
blocks of the request and its elements. -/
structure ClientWakeUp extends Delivery where
  mem : Mem
  req : RequestT
  elements : Nat → LtHttpHeaderElement

/-- The request of `http_create_request`, whose `header_in` is the first buffer. -/
def ClientWakeUp.head (b : ClientWakeUp) (s : RecvState) : Head where
  req := { b.req with state := 0 }
  buf := s.firstBuf
  mem := s.mem
  elements := ⟨[], b.elements⟩

section Hand

variable (writev : Nat → List UInt8 → WritevOutcome) (junk : Nat → Nat → LtChain)

def handRequest (h : Head) (s : Handing) : Option Handing :=
  (sendRequest writev junk h s.pair).map fun p =>
    ⟨p, s.requests ++ [slice h.mem h.req.requestStart h.buf.pos]⟩

inductive HttpDataComing (b : ClientWakeUp) (s : Handing) : Handing → Prop where
  | parsed {rv : Int} {r : RecvState} {res : Res} {h' : Head} {s' : Handing}
      (hStatus : s.pair.clientStatus = lConnectingAccepted) (hRecv : b.Receives b.mem rv r)
      (hLine : Returns (requestTurn (handRequest writev junk)) (.requestLine, b.head r, s) (some (res, h', s'))) :
      HttpDataComing b s s'
  | ignored (hStatus : s.pair.clientStatus ≠ lConnectingAccepted) : HttpDataComing b s s

inductive Reads : Handing → List ClientWakeUp → Handing → Prop where
  | nil (s : Handing) : Reads s [] s
  | cons {b : ClientWakeUp} {bs : List ClientWakeUp} {s s' s'' : Handing}
      (hCall : HttpDataComing writev junk b s s') (hRest : Reads s' bs s'') : Reads s (b :: bs) s''

/-- The batches hand on the same requests as one buffer that holds all their bytes. -/
def SameRequests (s : Handing) (bs : List ClientWakeUp) (h : Head) : Prop :=
  ∃ s' res h' t, Reads writev junk s bs s' ∧
    Returns (requestTurn (handRequest writev junk)) (.requestLine, h, s) (some (res, h', t)) ∧
    s'.requests = t.requests

end Hand

/-- A request as the parsers read it: a request line of a version and a header block. -/
structure WholeRequest where
  line : RequestLineText
  block : HeaderBlock
  skip : line.skip = []
  version : line.version.isSome
  current : line.versionNumber ≠ 9
  readable : ∀ upstream, block.Readable upstream

namespace WholeRequest

def bytes (x : WholeRequest) : List UInt8 := x.line.bytes ++ x.block.bytes

def headers (x : WholeRequest) : Nat := (x.block.lines.filter fun e => e.2.Valid).length

/-- The request with its header names in lower case, as the header loop leaves them. -/
def text (x : WholeRequest) : List UInt8 := x.line.bytes ++ x.block.lowered.bytes

theorem text_length (x : WholeRequest) : x.text.length = x.bytes.length := by
  have hLines := lowered_lines_length x.block.lines
  simp only [text, bytes, HeaderBlock.bytes, HeaderBlock.lowered, List.length_append] at hLines ⊢
  omega

theorem text_lengths (g : List WholeRequest) :
    (g.map (List.length ∘ text)).sum = (g.flatMap bytes).length := by
  rw [List.length_flatMap]
  exact congrArg List.sum (List.map_congr_left fun x _ => x.text_length)

/-- The requests of one buffer are short. -/
theorem small {g : List WholeRequest} (h : (g.flatMap bytes).length ≤ defaultBufSize) :
    ∀ x ∈ g, x.bytes.length < 2 ^ 31 := by
  intro x hx
  have hPart : x.bytes.length ≤ (g.flatMap bytes).length := by
    rw [List.flatMap_def]
    exact (List.sublist_flatten_of_mem (List.mem_map_of_mem hx)).length_le
  exact (hPart.trans h).trans_lt (by decide)

end WholeRequest

/-- The batches are rows of whole requests, and each fits one buffer. -/
def CutAtRequests (xs : List WholeRequest) (bs : List ClientWakeUp) : Prop :=
  ∃ groups : List (List WholeRequest), groups.flatten = xs ∧
    List.Forall₂ (fun g b => b.batch = g.flatMap WholeRequest.bytes ∧ b.batch.length ≤ defaultBufSize) groups bs

/-- The next calls of `http_send_to_upstream`, for the requests `xs`, come back: no pointer is NULL
or wild in `send_chains`, and no pool is freed twice in `destructor_chains`. -/
def SendsSafely (writev : Nat → List UInt8 → WritevOutcome) (junk : Nat → Nat → LtChain) (calls first : Nat)
    (xs : List WholeRequest) : Prop :=
  ∀ k x, xs[k]? = some x → ∀ mem chains bufs, bufs.length = 2 * x.headers + 3 →
    BuiltChain (junk (first + k)) chains 0 bufs → iovBytes mem bufs ≠ [] →
      (sendOutChain chains 0 (writev (calls + k) (iovBytes mem bufs))).isSome

section Requests

variable {writev : Nat → List UInt8 → WritevOutcome} {junk : Nat → Nat → LtChain}

/-- A block in the buffer behind the header loop. -/
theorem HeadersRead.blockBytes {h h' : Head} {p q : Nat} {blk : HeaderBlock} {rest : List UInt8}
    (hRead : HeadersRead h h' p blk) (hMem : slice h.mem p q = blk.bytes ++ rest) :
    slice h'.mem p (p + blk.bytes.length) = blk.lowered.bytes := by
  have hLength := lowered_lines_length blk.lines
  rw [HeaderBlock.bytes, List.append_assoc] at hMem
  obtain ⟨hLines, hTail⟩ := slice_eq_append hMem
  have hBehind := (slice_eq_append hTail).1
  have hLow := lowerLines_slice blk.lines hLines
  rw [HeaderBlock.bytes, HeaderBlock.bytes, List.length_append, hRead.mem, ← Nat.add_assoc]
  have hSame : (HeaderBlock.linesBytes blk.lowered.lines).length = (HeaderBlock.linesBytes blk.lines).length :=
    hLength
  refine slice_eq_append_of (by rw [hSame]; exact Nat.le_add_right _ _) (by rw [hSame]; exact hLow) ?_
  rw [hSame, slice_congr fun x hx _ => lowerLines_frame blk.lines (Or.inr hx)]
  exact hBehind

/-- A request at the front of the unread bytes is read, up to its last byte. What stands
behind it is not touched, and is what the next turn finds. -/
theorem WholeRequest.finished {h : Head} {rest : List UInt8} (x : WholeRequest) (hState : h.req.state = 0)
    (hUnread : h.buf.unread h.mem = x.bytes ++ rest) (hBound : x.bytes.length < 2 ^ 31) :
    ∃ h' base fields, AcceptsRequest h h' ∧ h'.req.state = 0 ∧ h'.buf.unread h'.mem = rest ∧
      slice h'.mem h'.req.requestStart h'.buf.pos = x.text ∧ ElementList h' base fields ∧
      fields.length = x.headers ∧ ∀ mem, iovBytes mem (requestIovecs h'.req fields) ≠ [] := by
  rw [bytes, List.append_assoc] at hUnread
  rw [bytes, List.length_append] at hBound
  obtain ⟨q, h', hReads, hAccepts, hHeaders, hRest⟩ := exists_headersRead x.line x.block hState hUnread x.version
    x.current (x.readable _) hBound
  have hStored := httpRequestLineParsed_stored { h.buf with pos := h.buf.pos + x.line.bytes.length } hReads
    (by omega)
  refine ⟨h', _, _, hAccepts, hHeaders.state, hRest, ?_, hHeaders.list, length_lineElements _ _, fun mem => ?_⟩
  · have hStart : h'.req.requestStart = h.buf.pos := by
      have hSame := congrArg RequestT.requestStart hHeaders.req
      refine hSame.trans ((httpRequestLineParsed_requestStart _ _).trans ?_)
      rw [requestLineDone_snd]
      simp only
      rw [hReads.requestStart, x.skip, List.length_nil, Nat.add_zero]
    obtain ⟨hLine, hBlock⟩ := slice_eq_append hUnread
    rw [hStart, hHeaders.buf]
    simp only
    rw [← slice_append (Nat.le_add_right _ x.line.bytes.length) (Nat.le_add_right _ _),
      hHeaders.front (Nat.le_refl _), hHeaders.blockBytes hBlock]
    simp only
    rw [hLine]
    rfl
  · refine iovBytes_requestIovecs_ne mem _ ?_
    have hName := congrArg RequestT.methodName hHeaders.req
    rw [show h'.req.methodName = _ from hName]
    exact hStored.method_pos (by omega)

theorem SendsSafely.left {calls first : Nat} {xs ys : List WholeRequest}
    (h : SendsSafely writev junk calls first (xs ++ ys)) : SendsSafely writev junk calls first xs := by
  intro k x hx
  refine h k x ?_
  rw [List.getElem?_append_left (List.getElem?_eq_some_iff.mp hx).1, hx]

theorem SendsSafely.right {calls first : Nat} {xs ys : List WholeRequest}
    (h : SendsSafely writev junk calls first (xs ++ ys)) :
    SendsSafely writev junk (calls + xs.length) (first + xs.length) ys := by
  intro k x hx
  rw [Nat.add_assoc, Nat.add_assoc]
  refine h (xs.length + k) x ?_
  rw [List.getElem?_append_right (Nat.le_add_right _ _), Nat.add_sub_cancel_left, hx]

/-- What a request that is handed on leaves in the pair. -/
theorem sendRequest_some {h : Head} {p : ConnPair} {base : Nat} {fields : List (LtString × LtString)}
    {x : WholeRequest} (hList : ElementList h base fields) (hFields : fields.length = x.headers)
    (hNe : iovBytes h.mem (requestIovecs h.req fields) ≠ [])
    (hSends : SendsSafely writev junk p.calls p.handed.length [x]) :
    ∃ p', sendRequest writev junk h p = some p' ∧ p'.calls = p.calls + 1 ∧
      p'.handed.length = p.handed.length + 1 ∧
      (p.clientStatus = lConnectingAccepted → p'.clientStatus = lConnectingAccepted) := by
  obtain ⟨chains, hConstruct, hChain, hVec⟩ := hList.built (junk p.handed.length)
  obtain ⟨⟨res, chains', out⟩, hSend⟩ := Option.isSome_iff_exists.mp
    (hSends 0 x rfl h.mem chains _ (by rw [length_requestIovecs, hFields]) hChain hNe)
  rw [Nat.add_zero] at hSend
  refine ⟨_, by
    simp only [sendRequest, hConstruct, Option.bind_some, hVec, httpSendToUpstream, hSend, Option.map_some]
    rfl, ?_, ?_, ?_⟩
  · cases res <;> rfl
  · cases res <;> exact List.length_append
  · cases res
    · exact fun _ => rfl
    all_goals exact id

/-- The requests `xs` were handed on, one call of `send_chains` each. -/
structure HandedOn (xs : List WholeRequest) (s s' : Handing) : Prop where
  requests : s'.requests = s.requests ++ xs.map WholeRequest.text
  calls : s'.pair.calls = s.pair.calls + xs.length
  chains : s'.pair.handed.length = s.pair.handed.length + xs.length
  status : s.pair.clientStatus = lConnectingAccepted → s'.pair.clientStatus = lConnectingAccepted

theorem HandedOn.trans {xs ys : List WholeRequest} {s s' s'' : Handing} (h : HandedOn xs s s')
    (h' : HandedOn ys s' s'') : HandedOn (xs ++ ys) s s'' where
  requests := by rw [h'.requests, h.requests, List.map_append, List.append_assoc]
  calls := by rw [h'.calls, h.calls, List.length_append, Nat.add_assoc]
  chains := by rw [h'.chains, h.chains, List.length_append, Nat.add_assoc]
  status := h'.status ∘ h.status

/-- What is left of the calls after some requests. -/
theorem HandedOn.safely {xs ys : List WholeRequest} {s s' : Handing} (h : HandedOn xs s s')
    (hSends : SendsSafely writev junk s.pair.calls s.pair.handed.length (xs ++ ys)) :
    SendsSafely writev junk s'.pair.calls s'.pair.handed.length ys := by
  rw [h.calls, h.chains]
  exact hSends.right

/-- The request at the front of the unread bytes is handed on. -/
theorem WholeRequest.handed {h : Head} {s : Handing} {rest : List UInt8} (x : WholeRequest)
    (hState : h.req.state = 0) (hUnread : h.buf.unread h.mem = x.bytes ++ rest) (hBound : x.bytes.length < 2 ^ 31)
    (hSends : SendsSafely writev junk s.pair.calls s.pair.handed.length [x]) :
    ∃ h' s', Reaches (requestTurn (handRequest writev junk)) (.requestLine, h, s) (.requestLine, h', s') ∧
      h'.req.state = 0 ∧ h'.buf.unread h'.mem = rest ∧ HandedOn [x] s s' := by
  obtain ⟨h', base, fields, hAccepts, hZero, hRest, hText, hList, hFields, hNe⟩ := x.finished hState hUnread hBound
  obtain ⟨p, hSend, hCalls, hChains, hKeeps⟩ := sendRequest_some hList hFields (hNe _) hSends
  have hHand : handRequest writev junk h' s = some ⟨p, s.requests ++ [x.text]⟩ := by
    rw [handRequest, hSend, Option.map_some, hText]
  exact ⟨h', _, (hAccepts.turns _ s).1 _ hHand, hZero, hRest, rfl, hCalls, hChains, hKeeps⟩

/-- A buffer of whole requests hands them on one by one. -/
theorem handsOn {h : Head} {s : Handing} {xs : List WholeRequest} (hState : h.req.state = 0)
    (hUnread : h.buf.unread h.mem = xs.flatMap WholeRequest.bytes) (hBound : ∀ x ∈ xs, x.bytes.length < 2 ^ 31)
    (hSends : SendsSafely writev junk s.pair.calls s.pair.handed.length xs) :
    ∃ h' s', Returns (requestTurn (handRequest writev junk)) (.requestLine, h, s) (some (.lagain, h', s')) ∧
      HandedOn xs s s' := by
  induction xs generalizing h s with
  | nil =>
      obtain ⟨h', hTurn⟩ := requestTurn_nil (handRequest writev junk) s hState hUnread
      exact ⟨h', s, returns_of_exit hTurn, by simp, rfl, rfl, id⟩
  | cons x xs ih =>
      rw [List.flatMap_cons] at hUnread
      rw [List.forall_mem_cons] at hBound
      rw [← List.singleton_append] at hSends
      obtain ⟨h₁, s₁, hReach, hZero, hRest, hFirst⟩ := x.handed hState hUnread hBound.1 hSends.left
      obtain ⟨h', s', hReturns, hHanded⟩ := ih hZero hRest hBound.2 (hFirst.safely hSends)
      exact ⟨h', s', hReach.returns hReturns, hFirst.trans hHanded⟩

/-- Batches that are cut at requests hand on all requests. -/
theorem reads_of_cut {groups : List (List WholeRequest)} {bs : List ClientWakeUp} {s : Handing}
    (hCut : List.Forall₂ (fun g b => b.batch = g.flatMap WholeRequest.bytes ∧ b.batch.length ≤ defaultBufSize)
      groups bs)
    (hStatus : s.pair.clientStatus = lConnectingAccepted)
    (hSends : SendsSafely writev junk s.pair.calls s.pair.handed.length groups.flatten) :
    ∃ s', Reads writev junk s bs s' ∧ HandedOn groups.flatten s s' := by
  induction hCut generalizing s with
  | nil => exact ⟨s, .nil s, by simp, rfl, rfl, id⟩
  | @cons g b groups bs hHere hCut ih =>
      obtain ⟨hBatch, hSmall⟩ := hHere
      rw [List.flatten_cons] at hSends
      obtain ⟨rv, r, hRecv⟩ := b.receives b.mem
      have hUnread : (b.head r).buf.unread (b.head r).mem = g.flatMap WholeRequest.bytes :=
        hRecv.unread.trans ((List.take_of_length_le hSmall).trans hBatch)
      obtain ⟨h', s₁, hReturns, hHanded⟩ := handsOn (s := s) rfl hUnread (WholeRequest.small (hBatch ▸ hSmall))
        hSends.left
      obtain ⟨s', hReads, hRest⟩ := ih (hHanded.status hStatus) (hHanded.safely hSends)
      exact ⟨s', .cons (.parsed hStatus hRecv hReturns) hReads, hHanded.trans hRest⟩

/-- A request that is handed on lies behind the bytes that were read before it. -/
theorem requestStart_of_lok {h h' : Head} {r : RequestT} {b : LtBuffer} (hState : h.req.state = 0)
    (hSize : h.buf.last - h.buf.pos < 2 ^ 31)
    (hCall : ngxHttpParseRequestLine h.mem h.req h.buf = (.lok, r, b))
    (hReturns : Returns headerTurn
      (({ h with req := httpRequestLineParsed r b, buf := b } : Head).clearElements, none) h') :
    h.buf.pos ≤ h'.req.requestStart ∧ h.buf.pos ≤ h'.buf.pos ∧ h'.buf.pos ≤ h.buf.last ∧
      h'.buf.last = h.buf.last ∧ h'.req.state = 0 := by
  obtain ⟨hPos, hLast, hBuf⟩ := ngxHttpParseRequestLine_pos_le hState hCall
  have hSame : b.last = h.buf.last := by rw [hBuf]
  have hZero : (httpRequestLineParsed r b).state = 0 :=
    (httpRequestLineParsed_state r b).trans (ngxHttpParseRequestLine_state hCall)
  obtain ⟨blk, rest, hUnread, hRead⟩ := headersRead_of_returns
    (h := { h with req := httpRequestLineParsed r b, buf := b }) hZero (by simp only [hSame]; omega) hReturns
  have hLength := congrArg List.length hUnread
  rw [LtBuffer.unread, length_slice, List.length_append] at hLength
  simp only [hSame] at hLength
  obtain ⟨t, -, q, -, hReads, rfl, -⟩ := requestLineText_of_lok hState hCall
  have hStart : h'.req.requestStart = q.requestStart := by
    have hField := congrArg RequestT.requestStart hRead.req
    refine hField.trans ((httpRequestLineParsed_requestStart _ _).trans ?_)
    rw [requestLineDone_snd]
  have hBehind := hReads.requestStart
  have hEnd : h'.buf = { b with pos := b.pos + blk.bytes.length } := hRead.buf
  rw [hEnd]
  exact ⟨by omega, by simp only; omega, by simp only; omega, hSame, hRead.state⟩

/-- What a buffer hands on lies in it: the requests do not overlap, and none reaches
behind the last byte. -/
theorem handed_length_le (n : Nat) {h h' : Head} {s s' : Handing} {res : Res} (hState : h.req.state = 0)
    (hSize : h.buf.last - h.buf.pos < 2 ^ 31)
    (hn : iterate (requestTurn (handRequest writev junk)) n (.requestLine, h, s) = .exit (some (res, h', s'))) :
    ∃ ts, s'.requests = s.requests ++ ts ∧ (ts.map List.length).sum ≤ h.buf.last - h.buf.pos := by
  induction n using Nat.strongRecOn generalizing h s with
  | ind n ih =>
      cases n with
      | zero => cases hn
      | succ n =>
          rw [iterate] at hn
          generalize hCall : ngxHttpParseRequestLine h.mem h.req h.buf = call at hn
          obtain ⟨rv, r, b⟩ := call
          by_cases hLok : rv = .lok
          · subst hLok
            rw [requestTurn_accepted _ hCall] at hn
            obtain ⟨h₁, hReturns, hRest⟩ := iterate_headers_exit _ hn
            obtain ⟨hStart, hFrom, hUpTo, hLast, hZero⟩ := requestStart_of_lok hState hSize hCall hReturns
            rcases hRest with hNone | ⟨s₁, m, hSend, hm, hExit⟩
            · have hUndefined := requestTurn_undefined (handRequest writev junk) hReturns hNone
              cases hUndefined.unique ⟨n, hn⟩
            · obtain ⟨p, -, rfl⟩ := Option.map_eq_some_iff.mp hSend
              obtain ⟨ts, hMore, hSum⟩ := ih m (by omega) hZero (by omega) hExit
              refine ⟨slice h₁.mem h₁.req.requestStart h₁.buf.pos :: ts, ?_, ?_⟩
              · rw [hMore, List.append_assoc, List.singleton_append]
              · rw [List.map_cons, List.sum_cons, length_slice]
                omega
          · simp only [requestTurn, hCall, if_neg hLok] at hn
            cases hn
            exact ⟨[], (List.append_nil _).symm, Nat.zero_le _⟩

/-- A wake-up hands on what lies in its first buffer. -/
theorem HttpDataComing.handed {b : ClientWakeUp} {s s' : Handing} (h : HttpDataComing writev junk b s s') :
    ∃ ts, s'.requests = s.requests ++ ts ∧ (ts.map List.length).sum ≤ min defaultBufSize b.batch.length := by
  cases h with
  | ignored hStatus => exact ⟨[], (List.append_nil _).symm, Nat.zero_le _⟩
  | @parsed _ r res h' s' hStatus hRecv hLine =>
      have hLength := congrArg List.length hRecv.unread
      rw [LtBuffer.unread, length_slice, List.length_take] at hLength
      have hRoom : (b.head r).buf.last - (b.head r).buf.pos = min defaultBufSize b.batch.length := hLength
      obtain ⟨n, hn⟩ := hLine
      obtain ⟨ts, hMore, hSum⟩ :=
        handed_length_le n rfl (by rw [hRoom]; exact (Nat.min_le_left _ _).trans_lt (by decide)) hn
      exact ⟨ts, hMore, hRoom ▸ hSum⟩

/-- Wake-ups hand on what lies in their first buffers. -/
theorem Reads.handed {s s' : Handing} {bs : List ClientWakeUp} (h : Reads writev junk s bs s') :
    ∃ tss : List (List (List UInt8)), s'.requests = s.requests ++ tss.flatten ∧
      List.Forall₂ (fun ts b => (ts.map List.length).sum ≤ min defaultBufSize b.batch.length) tss bs := by
  induction h with
  | nil s => exact ⟨[], (List.append_nil _).symm, .nil⟩
  | cons hCall _ ih =>
      obtain ⟨ts, hHere, hSum⟩ := hCall.handed
      obtain ⟨tss, hMore, hRest⟩ := ih
      exact ⟨ts :: tss, by rw [hMore, hHere, List.flatten_cons, List.append_assoc], .cons hSum hRest⟩

/-- A request at the front is accepted, however long it is. Its text, which the two
pointers of the request enclose, has all its bytes. -/
theorem WholeRequest.accepted {h : Head} {rest : List UInt8} (x : WholeRequest) (hState : h.req.state = 0)
    (hUnread : h.buf.unread h.mem = x.bytes ++ rest) :
    ∃ h', AcceptsRequest h h' ∧ (slice h'.mem h'.req.requestStart h'.buf.pos).length = x.bytes.length := by
  rw [bytes, List.append_assoc] at hUnread
  obtain ⟨q, hReads, hLine⟩ := ngxHttpParseRequestLine_text x.line hState hUnread
  have hDone : (requestLineDone (h.buf.pos + x.line.bytes.length - 1) q).1 = .lok :=
    (requestLineDone_lok _ hReads x.version).mpr fun hOld => x.current hOld.1
  rw [hDone] at hLine
  obtain ⟨h', hReturns, hFrame⟩ := headerLoop_returns none x.block
    (h := ({ h with
      req := httpRequestLineParsed (requestLineDone (h.buf.pos + x.line.bytes.length - 1) q).2
        { h.buf with pos := h.buf.pos + x.line.bytes.length }
      buf := { h.buf with pos := h.buf.pos + x.line.bytes.length } } : Head).clearElements)
    ((httpRequestLineParsed_state _ _).trans (ngxHttpParseRequestLine_state hLine))
    (slice_eq_append hUnread).2 (x.readable _)
  refine ⟨h', ⟨_, _, hLine, hReturns⟩, ?_⟩
  have hField := congrArg RequestT.requestStart hFrame.req
  have hStart : h'.req.requestStart = h.buf.pos := by
    refine hField.trans ((httpRequestLineParsed_requestStart _ _).trans ?_)
    rw [requestLineDone_snd]
    simp only
    rw [hReads.requestStart, x.skip, List.length_nil, Nat.add_zero]
  have hEnd : h'.buf.pos = h.buf.pos + x.line.bytes.length + x.block.bytes.length := congrArg LtBuffer.pos hFrame.buf
  rw [length_slice, hStart, hEnd, bytes, List.length_append]
  omega

/-- No turn takes back what was handed on. The requests are a log, to which a turn
appends one at most. -/
theorem requestTurn_requests {phase : Phase} {h : Head} {s : Handing} :
    (∀ u, requestTurn (handRequest writev junk) (phase, h, s) = .again u → s.requests <+: u.2.2.requests) ∧
      ∀ u, requestTurn (handRequest writev junk) (phase, h, s) = .exit (some u) → s.requests <+: u.2.2.requests := by
  cases phase with
  | requestLine =>
      simp only [requestTurn]
      split_ifs
      all_goals
        refine ⟨fun u hu => ?_, fun u hu => ?_⟩ <;> cases hu
        exact List.prefix_refl _
  | headers prev =>
      cases hTurn : headerTurn (h, prev) with
      | again t =>
          simp only [requestTurn, hTurn]
          refine ⟨fun u hu => ?_, fun u hu => ?_⟩ <;> cases hu
          exact List.prefix_refl _
      | exit g =>
          simp only [requestTurn, hTurn]
          cases hSend : handRequest writev junk g s with
          | none => refine ⟨fun u hu => ?_, fun u hu => ?_⟩ <;> cases hu
          | some s' =>
              obtain ⟨p, -, rfl⟩ := Option.map_eq_some_iff.mp hSend
              refine ⟨fun u hu => ?_, fun u hu => ?_⟩ <;> cases hu
              exact List.prefix_append _ _

/-- What was handed on stays handed on. -/
theorem requests_prefix {phase : Phase} {h h' : Head} {s s' : Handing} {res : Res}
    (hReturns : Returns (requestTurn (handRequest writev junk)) (phase, h, s) (some (res, h', s'))) :
    s.requests <+: s'.requests := by
  refine hReturns.all (I := fun t => s.requests <+: t.2.2.requests)
    (Q := fun r => ∀ u, r = some u → s.requests <+: u.2.2.requests) ?_ ?_ (List.prefix_refl _) _ rfl
  · exact fun t u hHere hTurn => hHere.trans (requestTurn_requests.1 u hTurn)
  · rintro t r hHere hTurn u rfl
    exact hHere.trans (requestTurn_requests.2 u hTurn)

/-- Among whole requests in one buffer, one of 2 ^ 31 bytes is handed on as such if the call returns. -/
theorem long_handed {h h' : Head} {s s' : Handing} {res : Res} {xs : List WholeRequest} (hState : h.req.state = 0)
    (hUnread : h.buf.unread h.mem = xs.flatMap WholeRequest.bytes) (hLong : ∃ x ∈ xs, 2 ^ 31 ≤ x.bytes.length)
    (hSends : SendsSafely writev junk s.pair.calls s.pair.handed.length xs)
    (hReturns : Returns (requestTurn (handRequest writev junk)) (.requestLine, h, s) (some (res, h', s'))) :
    ∃ ts, s'.requests = s.requests ++ ts ∧ ∃ w ∈ ts, 2 ^ 31 ≤ w.length := by
  induction xs generalizing h s with
  | nil => simp at hLong
  | cons x xs ih =>
      rw [List.flatMap_cons] at hUnread
      rw [← List.singleton_append] at hSends
      by_cases hHere : 2 ^ 31 ≤ x.bytes.length
      · obtain ⟨h₁, hAccepts, hLength⟩ := x.accepted hState hUnread
        obtain ⟨hReach, hFault⟩ := hAccepts.turns (handRequest writev junk) s
        cases hSend : handRequest writev junk h₁ s with
        | none => cases hReturns.unique (hFault hSend)
        | some s₁ =>
            have hLater := (hReach s₁ hSend).of_returns hReturns
            obtain ⟨p, -, rfl⟩ := Option.map_eq_some_iff.mp hSend
            obtain ⟨ts, hMore⟩ := requests_prefix hLater
            refine ⟨slice h₁.mem h₁.req.requestStart h₁.buf.pos :: ts, ?_, _, List.mem_cons_self, hLength ▸ hHere⟩
            rw [← hMore, List.append_assoc, List.singleton_append]
      · have hRest : ∃ y ∈ xs, 2 ^ 31 ≤ y.bytes.length := by
          obtain ⟨y, hy, hLong⟩ := hLong
          rcases List.mem_cons.mp hy with rfl | hy
          · exact absurd hLong hHere
          · exact ⟨y, hy, hLong⟩
        obtain ⟨h₁, s₁, hReach, hZero, hUnread₁, hFirst⟩ := x.handed hState hUnread (Nat.lt_of_not_le hHere)
          hSends.left
        obtain ⟨ts, hMore, w, hw, hLength⟩ :=
          ih hZero hUnread₁ hRest (hFirst.safely hSends) (hReach.of_returns hReturns)
        refine ⟨x.text :: ts, ?_, w, List.mem_cons_of_mem _ hw, hLength⟩
        rw [hMore, hFirst.requests, List.map_singleton, List.append_assoc, List.singleton_append]

/-- Batches that hand on the same requests are cut at requests. Each batch hands on a
front of what is left, so that their lengths must add up. -/
theorem cutAtRequests_of_sameRequests {h : Head} {s : Handing} {xs : List WholeRequest} {bs : List ClientWakeUp}
    (hState : h.req.state = 0) (hUnread : h.buf.unread h.mem = xs.flatMap WholeRequest.bytes)
    (hBatches : bs.flatMap (·.batch) = xs.flatMap WholeRequest.bytes)
    (hSends : SendsSafely writev junk s.pair.calls s.pair.handed.length xs)
    (hSame : SameRequests writev junk s bs h) : CutAtRequests xs bs := by
  obtain ⟨s', res, h', t, hReads, hReturns, hEqual⟩ := hSame
  obtain ⟨tss, hMore, hSums⟩ := hReads.handed
  have hBound : ∀ x ∈ xs, x.bytes.length < 2 ^ 31 := by
    by_contra hNot
    push Not at hNot
    obtain ⟨ts, hHanded, w, hw, hLong⟩ := long_handed hState hUnread hNot hSends hReturns
    rw [hMore, hHanded] at hEqual
    rw [← List.append_cancel_left hEqual] at hw
    obtain ⟨ts', hTs, hw⟩ := List.mem_flatten.mp hw
    obtain ⟨b, -, hSum⟩ := exists_of_forall₂ hSums hTs
    have hPart := List.single_le_sum (fun n _ => Nat.zero_le n) w.length (List.mem_map_of_mem hw)
    unfold defaultBufSize at hSum
    omega
  obtain ⟨h'', t', hReturns', hHanded⟩ := handsOn hState hUnread hBound hSends
  cases hReturns.unique hReturns'
  rw [hMore, hHanded.requests] at hEqual
  obtain ⟨groups, rfl, rfl⟩ := exists_groups _ (List.append_cancel_left hEqual).symm
  have hRows : List.Forall₂ (fun g b => (g.flatMap WholeRequest.bytes).length ≤ min defaultBufSize b.batch.length)
      groups bs := by
    refine (List.forall₂_map_left_iff.mp hSums).imp fun g b hSum => ?_
    rwa [List.map_map, WholeRequest.text_lengths] at hSum
  have hParts : groups.map (List.flatMap WholeRequest.bytes) = bs.map (·.batch) := by
    refine eq_of_flatten_eq ?_ ?_
    · rw [List.forall₂_map_left_iff, List.forall₂_map_right_iff]
      exact hRows.imp fun g b hLe => hLe.trans (Nat.min_le_right _ _)
    · rw [← List.flatMap_def, ← List.flatMap_def, hBatches, ← List.flatMap_id, List.flatMap_assoc]
      rfl
  rw [← List.forall₂_eq_eq_eq, List.forall₂_map_left_iff, List.forall₂_map_right_iff] at hParts
  refine ⟨groups, rfl, List.Forall₂.mp (fun g b hPart hLe => ⟨hPart.symm, ?_⟩) hParts hRows⟩
  rw [← hPart]
  exact hLe.trans (Nat.min_le_left _ _)

/-- The batches hand on the same requests as one buffer exactly if they are rows of
whole requests, and each fits one buffer. That the chains of these requests can be sent
at all is assumed of both sides alike. -/
theorem sameRequests_iff_cutAtRequests {h : Head} {s : Handing} {xs : List WholeRequest} {bs : List ClientWakeUp}
    (hState : h.req.state = 0) (hUnread : h.buf.unread h.mem = xs.flatMap WholeRequest.bytes)
    (hBatches : bs.flatMap (·.batch) = xs.flatMap WholeRequest.bytes)
    (hStatus : s.pair.clientStatus = lConnectingAccepted)
    (hSends : SendsSafely writev junk s.pair.calls s.pair.handed.length xs) :
    SameRequests writev junk s bs h ↔ CutAtRequests xs bs := by
  refine ⟨cutAtRequests_of_sameRequests hState hUnread hBatches hSends, ?_⟩
  rintro ⟨groups, rfl, hCut⟩
  have hBound : ∀ x ∈ groups.flatten, x.bytes.length < 2 ^ 31 := by
    intro x hx
    obtain ⟨g, hg, hx⟩ := List.mem_flatten.mp hx
    obtain ⟨b, -, hBatch, hSmall⟩ := exists_of_forall₂ hCut hg
    exact WholeRequest.small (hBatch ▸ hSmall) x hx
  obtain ⟨s', hReads, hHanded⟩ := reads_of_cut hCut hStatus hSends
  obtain ⟨h', t, hReturns, hHanded'⟩ := handsOn hState hUnread hBound hSends
  exact ⟨s', .lagain, h', t, hReads, hReturns, hHanded.requests.trans hHanded'.requests.symm⟩

end Requests

def wholeGet : WholeRequest where
  line := plainLine true
  block := plainBlock true
  skip := rfl
  version := rfl
  current := by decide
  readable := plainBlock_readable true

def oneBatch (w : List UInt8) (hFits : Deliverable defaultBufSize [w]) : ClientWakeUp where
  toDelivery := rowDelivery [w] hFits single_few
  mem := fun _ => 0
  req := {}
  elements := fun _ => ⟨0, 0, ⟨0, 0⟩, ⟨0, 0⟩, ⟨0, 0⟩, none⟩

theorem wholeGet_unread : (Head.received wholeGet.bytes).buf.unread (Head.received wholeGet.bytes).mem =
    [wholeGet].flatMap WholeRequest.bytes := by
  rw [Head.received_unread, List.flatMap_singleton]

/-- Chains of one pool with NULL behind them are sent safely. -/
theorem sendsSafely_null (calls first : Nat) {xs : List WholeRequest}
    (hFew : ∀ x ∈ xs, 2 * x.headers + 3 ≤ chainPoolLength) :
    SendsSafely takesEveryByte nullChains calls first xs := by
  intro k x hx mem chains bufs hLength hChain hNe
  have hBufs : bufs ≠ [] := fun hNil => hNe (by rw [hNil]; rfl)
  have hFresh := hChain.row.fresh
  obtain ⟨chains', hSend⟩ := sendPooled_whole mem (hChain.outVec hBufs) hNe
  have hOne : chains.fresh ≤ chainPoolLength := by
    rw [hFresh, Nat.zero_add, hLength]
    exact hFew x (List.mem_of_getElem? hx)
  rw [takesEveryByte_eq, sendOutChain, hSend, Option.bind_some, if_pos rfl, destructorChains, if_pos hOne]
  rfl

theorem wholeGet_few : ∀ x ∈ [wholeGet], 2 * x.headers + 3 ≤ chainPoolLength :=
  List.forall_mem_singleton.mpr (by decide)

theorem sameRequests_iff_cutAtRequests_wholeGet :
    SameRequests takesEveryByte nullChains ⟨httpInitConnection, []⟩
        [oneBatch wholeGet.bytes ⟨by decide, by decide, trivial⟩] (.received wholeGet.bytes) ↔
      CutAtRequests [wholeGet] [oneBatch wholeGet.bytes ⟨by decide, by decide, trivial⟩] :=
  sameRequests_iff_cutAtRequests rfl wholeGet_unread rfl rfl (sendsSafely_null _ _ wholeGet_few)

def cutBatches : List ClientWakeUp :=
  [oneBatch (wholeGet.bytes.take 3) ⟨by decide, by decide, trivial⟩,
    oneBatch (wholeGet.bytes.drop 3) ⟨by decide, by decide, trivial⟩]

theorem not_sameRequests :
    ¬ ∀ (writev : Nat → List UInt8 → WritevOutcome) (junk : Nat → Nat → LtChain) (h : Head) (s : Handing)
      (xs : List WholeRequest) (bs : List ClientWakeUp), h.req.state = 0 →
      h.buf.unread h.mem = xs.flatMap WholeRequest.bytes → bs.flatMap (·.batch) = xs.flatMap WholeRequest.bytes →
      s.pair.clientStatus = lConnectingAccepted →
      SendsSafely writev junk s.pair.calls s.pair.handed.length xs → SameRequests writev junk s bs h := by
  intro hClaim
  have hSame := hClaim takesEveryByte nullChains (.received wholeGet.bytes)
    ⟨httpInitConnection, []⟩ [wholeGet] cutBatches rfl wholeGet_unread (by decide) rfl (sendsSafely_null _ _ wholeGet_few)
  obtain ⟨groups, hGroups, hCut⟩ := cutAtRequests_of_sameRequests rfl wholeGet_unread (by decide)
    (sendsSafely_null _ _ wholeGet_few) hSame
  cases hCut with
  | @cons g _ gs _ hFirst hRest =>
      have hBatch : 3 = (g.flatMap WholeRequest.bytes).length := congrArg List.length hFirst.1
      cases g with
      | nil => cases hBatch
      | cons x g =>
          rw [List.flatten_cons, List.cons_append] at hGroups
          obtain ⟨rfl, -⟩ := List.cons.inj hGroups
          have hLong : 3 < wholeGet.bytes.length := by decide
          rw [List.flatMap_cons, List.length_append] at hBatch
          omega

end Leactor
