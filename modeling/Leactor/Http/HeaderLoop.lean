import Leactor.Http.Head
import Leactor.Parse.HeaderSpec

/-! The turns of the header loop of `http_process_request_headers`, and the
header blocks at whose end it leaves. -/
namespace Leactor

open Ascii Scan Loop Memory

def lowerRange (mem : Mem) (a n : Nat) : Mem :=
  fun x => if a ≤ x ∧ x < a + n then tolower (mem x) else mem x

theorem tolower_tolower : ∀ c : UInt8, tolower (tolower c) = tolower c := by
  apply forall_byte
  decide +kernel

theorem lowerRange_of_le {mem : Mem} {a n x : Nat} (h : a + n ≤ x) : lowerRange mem a n x = mem x := by
  unfold lowerRange
  rw [if_neg (by omega)]

theorem foldl_lowcaseAt (mem : Mem) (a n : Nat) :
    (List.range n).foldl (lowcaseAt a) mem = lowerRange mem a n := by
  induction n with
  | zero =>
      funext x
      rw [lowerRange, if_neg (by omega)]
      rfl
  | succ n ih =>
      rw [List.range_succ, List.foldl_append, ih]
      funext x
      simp only [List.foldl_cons, List.foldl_nil, lowcaseAt, lowerRange]
      split_ifs <;> first | rfl | omega

theorem lowcaseKeyCopyFromOrigin_eq (mem : Mem) (origin : LtString) :
    lowcaseKeyCopyFromOrigin mem origin =
      (lowerRange mem origin.data origin.length.toNat, origin) := by
  rw [lowcaseKeyCopyFromOrigin, foldl_lowcaseAt]

/-- A pointer difference never reaches beyond the larger pointer. -/
theorem ptrDiff_toNat_le {p q : Nat} (h : q ≤ p) : q + (ptrDiff p q).toNat ≤ p := by
  unfold ptrDiff wrap32
  rw [Int.bmod_def]
  split_ifs <;> omega

def RequestT.forgetHead (r : RequestT) : RequestT :=
  { r.forgetHeader with elementHead := none, elementTail := none, requestLength := 0 }

theorem RequestT.forgetHead_of_forgetHeader {r r' : RequestT} (h : r'.forgetHeader = r.forgetHeader) :
    r'.forgetHead = r.forgetHead := by
  rw [forgetHead, forgetHead, h]

theorem RequestT.upstream_of_forgetHead {r r' : RequestT} (h : r'.forgetHead = r.forgetHead) :
    r'.upstream = r.upstream := by
  have hField := congrArg RequestT.upstream h
  exact hField

/-- `http_process_host` changes only bytes of the host. -/
theorem httpProcessHost_frame {mem : Mem} {host : LtString} {x : Nat}
    (h : host.data + host.length.toNat ≤ x) : (httpProcessHost mem host).2.1 x = mem x := by
  unfold httpProcessHost
  simp only [lowcaseKeyCopyFromOrigin_eq]
  split
  · rfl
  · split_ifs
    · rfl
    · exact lowerRange_of_le h
    · rfl
    · exact lowerRange_of_le h

/-- A new element changes no byte behind the line, and no other part of the head. -/
theorem Head.addElement_frame {h : Head} (prev : Option Nat) {x : Nat}
    (hName : h.req.headerNameStart ≤ h.req.headerNameEnd) (hNameEnd : h.req.headerNameEnd ≤ x)
    (hValue : h.req.headerStart ≤ h.req.headerEnd) (hValueEnd : h.req.headerEnd ≤ x) :
    (h.addElement prev).1.buf = h.buf ∧ (h.addElement prev).1.req.state = h.req.state ∧
      (h.addElement prev).1.req.forgetHead = h.req.forgetHead ∧
      (h.addElement prev).1.mem x = h.mem x := by
  refine ⟨rfl, rfl, rfl, ?_⟩
  have hKey := ptrDiff_toNat_le hName
  have hHost := ptrDiff_toNat_le hValue
  by_cases hHash : h.req.headerHash = hostHash
  · simp only [addElement, httpProcessElement, lowcaseKeyCopyFromOrigin_eq, hHash, if_true]
    rw [httpProcessHost_frame (by simp only; omega)]
    exact lowerRange_of_le (by omega)
  · simp only [addElement, httpProcessElement, lowcaseKeyCopyFromOrigin_eq, hHash, if_false]
    exact lowerRange_of_le (by omega)

/-- After a turn the loop stands at `pos`, and only earlier bytes have changed. -/
structure TurnFrame (h h' : Head) (pos : Nat) : Prop where
  buf : h'.buf = { h.buf with pos := pos }
  state : h'.req.state = 0
  req : h'.req.forgetHead = h.req.forgetHead
  mem : ∀ x, pos ≤ x → h'.mem x = h.mem x

/-- A header line is consumed by one turn, which adds an element if the line is valid. -/
theorem headerTurn_line_eq {h : Head} (prev : Option Nat) {skip rest : List UInt8} (l : HeaderText)
    (hState : h.req.state = 0) (hUnread : h.buf.unread h.mem = skip ++ (l.bytes ++ rest))
    (hSkip : Skipped h.req.upstream skip) (hReply : h.req.upstream ≠ 0 → ¬ l.StartsReply) :
    ∃ r' n h₁, ReadsLine l (h.buf.pos + skip.length) h.req r' ∧
      h₁ = { h with
        req := { r' with requestLength := n }
        buf := { h.buf with pos := h.buf.pos + skip.length + l.bytes.length } } ∧
      headerTurn (h, prev) = .again (if l.Valid then h₁.addElement prev else (h₁, prev)) := by
  obtain ⟨r', hParse, hReads⟩ := ngxHttpParseHeaderLine_line l hState hUnread hSkip hReply
  refine ⟨r', wrap32 (r'.requestLength + ptrDiff (h.buf.pos + skip.length + l.bytes.length)
    r'.headerNameStart), _, hReads, rfl, ?_⟩
  simp only [headerTurn, hParse]
  by_cases hValid : l.Valid
  · rw [if_neg (not_not.mpr (hReads.invalid.mpr hValid)), if_pos hValid]
  · rw [if_pos (mt hReads.invalid.mp hValid), if_neg hValid]

/-- In either case only bytes of the line have changed, and the next turn begins behind
it. -/
theorem headerTurn_line {h : Head} (prev : Option Nat) {skip rest : List UInt8} (l : HeaderText)
    (hState : h.req.state = 0) (hUnread : h.buf.unread h.mem = skip ++ (l.bytes ++ rest))
    (hSkip : Skipped h.req.upstream skip) (hReply : h.req.upstream ≠ 0 → ¬ l.StartsReply) :
    ∃ h' prev', headerTurn (h, prev) = .again (h', prev') ∧
      TurnFrame h h' (h.buf.pos + skip.length + l.bytes.length) := by
  obtain ⟨r', n, h₁, hReads, hHead, hTurn⟩ :=
    headerTurn_line_eq prev l hState hUnread hSkip hReply
  have hFrame := RequestT.forgetHead_of_forgetHeader hReads.frame
  have hFirst : TurnFrame h h₁ (h.buf.pos + skip.length + l.bytes.length) := by
    subst hHead
    exact ⟨rfl, hReads.state, hFrame, fun _ _ => rfl⟩
  rw [hTurn]
  split_ifs with hValid
  · refine ⟨_, _, rfl, ?_⟩
    have hBytes := l.value_end_le
    have hName := l.name_length_le
    have hAdd : ∀ x, h.buf.pos + skip.length + l.bytes.length ≤ x →
        (h₁.addElement prev).1.mem x = h₁.mem x := by
      intro x hx
      subst hHead
      refine (Head.addElement_frame prev ?_ ?_ ?_ ?_).2.2.2 <;>
        simp only [hReads.nameStart, hReads.nameEnd, hReads.valueStart, hReads.valueEnd] <;> omega
    exact ⟨hFirst.buf, hFirst.state, hFirst.req, fun x hx => (hAdd x hx).trans (hFirst.mem x hx)⟩
  · exact ⟨_, _, rfl, hFirst⟩

/-- The blank line leaves the loop. -/
theorem headerTurn_blank {h : Head} (prev : Option Nat) {skip rest : List UInt8} (blank : Bool)
    (hState : h.req.state = 0) (hUnread : h.buf.unread h.mem = skip ++ (lineBreak blank ++ rest))
    (hSkip : Skipped h.req.upstream skip) :
    ∃ r', headerTurn (h, prev) = .exit { h with
        req := r', buf := { h.buf with pos := h.buf.pos + skip.length + (lineBreak blank).length } } ∧
      r'.forgetHeader = h.req.forgetHeader ∧ r'.state = 0 := by
  obtain ⟨r', hParse, hFrame, hReset⟩ := ngxHttpParseHeaderLine_blank blank hState hUnread hSkip
  exact ⟨r', by simp only [headerTurn, hParse], hFrame, hReset⟩

/-- A call that stalls only begins the next turn. -/
theorem headerTurn_stalls {h : Head} (prev : Option Nat)
    (hStall : Stalls h.req h.buf (ngxHttpParseHeaderLine h.mem h.req h.buf true)) :
    ∃ r' b', headerTurn (h, prev) = .again ({ h with req := r', buf := b' }, prev) ∧
      ((b' = h.buf ∧ r'.state = 0 ∧ r'.upstream = h.req.upstream) ∨
        (b' = { h.buf with pos := max h.buf.pos h.buf.last } ∧
          ∃ s : HeaderLineState, r'.state = s.toNat)) := by
  generalize hCall : ngxHttpParseHeaderLine h.mem h.req h.buf true = result at hStall
  cases hStall with
  | @invalid r' hState hUpstream =>
      exact ⟨r', h.buf, by simp only [headerTurn, hCall], Or.inl ⟨rfl, hState, hUpstream⟩⟩
  | @again r' s hState =>
      exact ⟨r', _, by simp only [headerTurn, hCall], Or.inr ⟨rfl, s, hState⟩⟩

/-- A header block: lines, each behind lines that are skipped, and a blank line. -/
structure HeaderBlock where
  lines : List (List UInt8 × HeaderText)
  skip : List UInt8
  blank : Bool

namespace HeaderBlock

def linesBytes (lines : List (List UInt8 × HeaderText)) : List UInt8 :=
  lines.flatMap fun e => e.1 ++ e.2.bytes

theorem linesBytes_cons (skip : List UInt8) (l : HeaderText) (lines : List (List UInt8 × HeaderText)) :
    linesBytes ((skip, l) :: lines) = skip ++ (l.bytes ++ linesBytes lines) := by
  simp [linesBytes]

def bytes (blk : HeaderBlock) : List UInt8 :=
  linesBytes blk.lines ++ (blk.skip ++ lineBreak blk.blank)

/-- A block as a request with this upstream reads it. -/
def Readable (upstream : Nat) (blk : HeaderBlock) : Prop :=
  (∀ e ∈ blk.lines, Skipped upstream e.1 ∧ (upstream ≠ 0 → ¬ e.2.StartsReply)) ∧
    Skipped upstream blk.skip

end HeaderBlock

def BeginsWithBlock (upstream : Nat) (w : List UInt8) : Prop :=
  ∃ blk : HeaderBlock, blk.Readable upstream ∧ blk.bytes <+: w

theorem TurnFrame.trans {h h' h'' : Head} {p q : Nat} (hFirst : TurnFrame h h' p)
    (hSecond : TurnFrame h' h'' q) (hLe : p ≤ q) : TurnFrame h h'' q where
  buf := by rw [hSecond.buf, hFirst.buf]
  state := hSecond.state
  req := hSecond.req.trans hFirst.req
  mem x hx := (hSecond.mem x hx).trans (hFirst.mem x (hLe.trans hx))

/-- What is still unread is as it was. -/
theorem TurnFrame.unread {h h' : Head} {v w : List UInt8} (hTurn : TurnFrame h h' (h.buf.pos + v.length))
    (hUnread : h.buf.unread h.mem = v ++ w) : h'.buf.unread h'.mem = w := by
  rw [LtBuffer.unread, hTurn.buf, slice_congr fun x hx _ => hTurn.mem x hx]
  exact (slice_eq_append hUnread).2

/-- The loop over a header block: what the turn over a line keeps of the lines to
come, and the turn over the blank line turns into the result, is the result. -/
theorem headerLoop_rule {I : List (List UInt8 × HeaderText) → Head → Option Nat → Prop} {Q : Head → Prop}
    (hLine : ∀ {h h' : Head} {prev prev' : Option Nat} {skip rest : List UInt8} {l : HeaderText}
      {lines : List (List UInt8 × HeaderText)}, h.req.state = 0 →
      h.buf.unread h.mem = skip ++ (l.bytes ++ rest) → Skipped h.req.upstream skip →
      (h.req.upstream ≠ 0 → ¬ l.StartsReply) → headerTurn (h, prev) = .again (h', prev') →
      TurnFrame h h' (h.buf.pos + skip.length + l.bytes.length) → I ((skip, l) :: lines) h prev →
      I lines h' prev')
    (hBlank : ∀ {h : Head} {prev : Option Nat} {r' : RequestT} {pos : Nat},
      headerTurn (h, prev) = .exit { h with req := r', buf := { h.buf with pos := pos } } →
      r'.forgetHeader = h.req.forgetHeader → I [] h prev →
      Q { h with req := r', buf := { h.buf with pos := pos } })
    {h : Head} (prev : Option Nat) {rest : List UInt8} (blk : HeaderBlock)
    (hState : h.req.state = 0) (hUnread : h.buf.unread h.mem = blk.bytes ++ rest)
    (hRead : blk.Readable h.req.upstream) (hStart : I blk.lines h prev) :
    ∃ h', Returns headerTurn (h, prev) h' ∧ TurnFrame h h' (h.buf.pos + blk.bytes.length) ∧ Q h' := by
  obtain ⟨lines, skip, blank⟩ := blk
  obtain ⟨hLines, hSkip⟩ := hRead
  simp only at hLines hSkip hStart
  induction lines generalizing h prev with
  | nil =>
      have hHere : h.buf.unread h.mem = skip ++ (lineBreak blank ++ rest) := by
        simpa [HeaderBlock.bytes, HeaderBlock.linesBytes] using hUnread
      obtain ⟨r', hTurn, hFrame, hReset⟩ := headerTurn_blank prev blank hState hHere hSkip
      refine ⟨_, returns_of_exit hTurn, ⟨?_, hReset, RequestT.forgetHead_of_forgetHeader hFrame,
        fun _ _ => rfl⟩, hBlank hTurn hFrame hStart⟩
      simp [HeaderBlock.bytes, HeaderBlock.linesBytes, Nat.add_assoc]
  | cons e lines ih =>
      obtain ⟨before, l⟩ := e
      rw [List.forall_mem_cons] at hLines
      have hHere : h.buf.unread h.mem =
          before ++ (l.bytes ++ ((HeaderBlock.mk lines skip blank).bytes ++ rest)) := by
        simpa [HeaderBlock.bytes, HeaderBlock.linesBytes] using hUnread
      obtain ⟨h₁, prev₁, hTurn, hFirst⟩ := headerTurn_line prev l hState hHere
        hLines.1.1 hLines.1.2
      have hNext := hLine hState hHere hLines.1.1 hLines.1.2 hTurn hFirst hStart
      have hUpstream := RequestT.upstream_of_forgetHead hFirst.req
      have hFirst' : TurnFrame h h₁ (h.buf.pos + (before ++ l.bytes).length) := by
        rwa [List.length_append, ← Nat.add_assoc]
      have hRest : h₁.buf.unread h₁.mem = (HeaderBlock.mk lines skip blank).bytes ++ rest :=
        hFirst'.unread (by rw [hHere, List.append_assoc])
      obtain ⟨h₂, hReturns, hSecond, hResult⟩ := ih (h := h₁) prev₁ hFirst.state hRest hNext
        (by rw [hUpstream]; exact hLines.2) (by rwa [hUpstream])
      refine ⟨h₂, (returns_again_iff hTurn).mpr hReturns, ?_, hResult⟩
      have hLength : h.buf.pos + (HeaderBlock.mk ((before, l) :: lines) skip blank).bytes.length =
          h₁.buf.pos + (HeaderBlock.mk lines skip blank).bytes.length := by
        rw [hFirst.buf]
        simp only [HeaderBlock.bytes, HeaderBlock.linesBytes, List.flatMap_cons, List.length_append]
        omega
      rw [hLength]
      exact hFirst.trans hSecond (by rw [hFirst.buf]; exact Nat.le_add_right _ _)

/-- Over a header block the loop returns behind the blank line. -/
theorem headerLoop_returns {h : Head} (prev : Option Nat) {rest : List UInt8} (blk : HeaderBlock)
    (hState : h.req.state = 0) (hUnread : h.buf.unread h.mem = blk.bytes ++ rest)
    (hRead : blk.Readable h.req.upstream) :
    ∃ h', Returns headerTurn (h, prev) h' ∧ TurnFrame h h' (h.buf.pos + blk.bytes.length) := by
  obtain ⟨h', hReturns, hFrame, -⟩ := headerLoop_rule (I := fun _ _ _ => True) (Q := fun _ => True)
    (fun _ _ _ _ _ _ _ => trivial) (fun _ _ _ => trivial) prev blk hState hUnread hRead trivial
  exact ⟨h', hReturns, hFrame⟩

/-- At the end of the bytes the loop never leaves. -/
theorem headerLoop_empty_not_terminates {h : Head} {prev : Option Nat} (s : HeaderLineState)
    (hState : h.req.state = s.toNat) (hEnd : h.buf.last ≤ h.buf.pos) :
    ¬ Terminates headerTurn (h, prev) := by
  refine not_terminates_of_inv
    (I := fun t => (∃ s : HeaderLineState, t.1.req.state = s.toNat) ∧ t.1.buf.last ≤ t.1.buf.pos)
    ?_ ⟨⟨s, hState⟩, hEnd⟩
  rintro ⟨g, prev⟩ ⟨⟨s, hs⟩, hg⟩
  obtain ⟨r', b', hTurn, hStall⟩ := headerTurn_stalls prev (ngxHttpParseHeaderLine_empty s hs hg)
  refine ⟨_, hTurn, ?_⟩
  rcases hStall with ⟨rfl, hReset, -⟩ | ⟨rfl, hNext⟩
  · exact ⟨⟨.start, hReset⟩, hg⟩
  · exact ⟨hNext, Nat.le_max_right _ _⟩

/-- A loop that leaves has read a header block. The induction is on the number of turns;
a turn on a cut line repeats itself. -/
theorem beginsWithBlock_of_terminates {h : Head} {prev : Option Nat} (hState : h.req.state = 0)
    (hTerminates : Terminates headerTurn (h, prev)) :
    BeginsWithBlock h.req.upstream (h.buf.unread h.mem) := by
  obtain ⟨result, n, hn⟩ := hTerminates
  induction n generalizing h prev with
  | zero => cases hn
  | succ n ih =>
      rcases ngxHttpParseHeaderLine_cases h.mem (b := h.buf) hState with
        ⟨l, skip, rest, hUnread, hSkip, hReply⟩ | ⟨blank, skip, rest, hUnread, hSkip⟩ | hStall
      · obtain ⟨h₁, prev₁, hTurn, hFirst⟩ := headerTurn_line prev l hState hUnread hSkip hReply
        rw [iterate, hTurn] at hn
        obtain ⟨⟨lines, last, blank⟩, ⟨hLines, hLast⟩, tail, hTail⟩ := ih hFirst.state hn
        have hUpstream := RequestT.upstream_of_forgetHead hFirst.req
        rw [hUpstream] at hLines hLast
        have hFirst' : TurnFrame h h₁ (h.buf.pos + (skip ++ l.bytes).length) := by
          rwa [List.length_append, ← Nat.add_assoc]
        have hRest : h₁.buf.unread h₁.mem = rest :=
          hFirst'.unread (by rw [hUnread, List.append_assoc])
        refine ⟨⟨(skip, l) :: lines, last, blank⟩, ⟨?_, hLast⟩, tail, ?_⟩
        · exact List.forall_mem_cons.mpr ⟨⟨hSkip, hReply⟩, hLines⟩
        · rw [hRest] at hTail
          rw [hUnread, ← hTail]
          simp [HeaderBlock.bytes, HeaderBlock.linesBytes]
      · exact ⟨⟨[], skip, blank⟩, ⟨by simp, hSkip⟩, rest,
          by simp [HeaderBlock.bytes, HeaderBlock.linesBytes, hUnread]⟩
      · obtain ⟨r', b', hTurn, hAfter⟩ := headerTurn_stalls prev hStall
        rw [iterate, hTurn] at hn
        rcases hAfter with ⟨rfl, hReset, hUpstream⟩ | ⟨rfl, s, hNext⟩
        · have hBlock := ih (h := { h with req := r' }) hReset hn
          rwa [hUpstream] at hBlock
        · exact absurd ⟨result, n, hn⟩
            (headerLoop_empty_not_terminates s hNext (Nat.le_max_right _ _))

/-- The header loop leaves exactly on the buffers that begin with a header block. -/
theorem headerLoop_terminates_iff {h : Head} {prev : Option Nat} (hState : h.req.state = 0) :
    Terminates headerTurn (h, prev) ↔ BeginsWithBlock h.req.upstream (h.buf.unread h.mem) := by
  refine ⟨beginsWithBlock_of_terminates hState, ?_⟩
  rintro ⟨blk, hRead, rest, hRest⟩
  obtain ⟨h', hReturns, -⟩ := headerLoop_returns prev blk hState hRest.symm hRead
  exact ⟨h', hReturns⟩

end Leactor
