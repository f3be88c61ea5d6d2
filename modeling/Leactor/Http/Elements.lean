import Leactor.Http.HeaderLoop

/-! The header elements that the header loop collects: one for each valid line,
linked in the order of the lines, with the name and the value as slices of the
buffer. The names are lower-cased in the buffer itself. -/
namespace Leactor

open Ascii Scan Loop Memory

def hostLength (v : List UInt8) : Option Nat :=
  match run hostByteStep 0 ⟨.usual, v.length, v.length⟩ v with
  | .halted _ _ => none
  | .pending σ =>
      let hostLen := if σ.dotPos = toSize ((σ.hostLen : Int) - 1) then toSize ((σ.hostLen : Int) - 1)
        else σ.hostLen
      if hostLen = 0 then none else some hostLen

namespace HeaderText

def NamesHost (l : HeaderText) : Prop := nameHash l.name = hostHash

instance : DecidablePred NamesHost := fun _ => inferInstanceAs (Decidable (_ = _))

def keptLength (l : HeaderText) : Nat :=
  if l.NamesHost then (hostLength l.value).getD l.value.length else l.value.length

def element (l : HeaderText) (p : Nat) : LtString × LtString :=
  (⟨l.name.length, p⟩, ⟨l.keptLength, p + l.valueOffset⟩)

/-- What the loop does to the memory for a line at `p`. -/
def lower (l : HeaderText) (p : Nat) (mem : Mem) : Mem :=
  if l.Valid then
    if l.NamesHost ∧ (hostLength l.value).isSome then
      lowerRange (lowerRange mem p l.name.length) (p + l.valueOffset) l.value.length
    else lowerRange mem p l.name.length
  else mem

end HeaderText

def lineElements : Nat → List (List UInt8 × HeaderText) → List (LtString × LtString)
  | _, [] => []
  | p, (skip, l) :: lines =>
      (if l.Valid then [l.element (p + skip.length)] else []) ++
        lineElements (p + skip.length + l.bytes.length) lines

def lowerLines : Nat → List (List UInt8 × HeaderText) → Mem → Mem
  | _, [], mem => mem
  | p, (skip, l) :: lines, mem =>
      lowerLines (p + skip.length + l.bytes.length) lines (l.lower (p + skip.length) mem)

/-- The host scan keeps its positions inside the value. -/
theorem run_hostByteStep {v w : List UInt8} {p : Nat} {σ : HostScan} (hp : p + w.length = v.length)
    (h : σ.dotPos ≤ v.length ∧ σ.hostLen ≤ v.length) :
    (run hostByteStep p σ w).All (fun σ => σ.dotPos ≤ v.length ∧ σ.hostLen ≤ v.length)
      fun _ _ => True := by
  induction w generalizing p σ with
  | nil => exact h
  | cons c w ih =>
      rw [List.length_cons] at hp
      have hStep : (hostByteStep p σ c).All
          (fun σ => σ.dotPos ≤ v.length ∧ σ.hostLen ≤ v.length) fun _ => True := by
        unfold hostByteStep
        repeat' refine Verdict.all_ite (fun _ => ?_) fun _ => ?_
        all_goals first | exact trivial | exact h | (simp only [Verdict.All]; omega)
      cases hMove : hostByteStep p σ c with
      | next σ' =>
          rw [hMove] at hStep
          rw [run_cons_next _ hMove]
          exact ih (by omega) hStep
      | halt r =>
          rw [run_cons_halt _ hMove]
          trivial

theorem hostLength_le {v : List UInt8} {n : Nat} (h : hostLength v = some n) : n ≤ v.length := by
  have hRun := run_hostByteStep (v := v) (w := v) (p := 0) (σ := ⟨.usual, v.length, v.length⟩)
    (Nat.zero_add _) ⟨Nat.le_refl _, Nat.le_refl _⟩
  unfold hostLength at h
  cases hScan : run hostByteStep 0 ⟨.usual, v.length, v.length⟩ v with
  | halted _ _ =>
      rw [hScan] at h
      exact nomatch h
  | pending σ =>
      rw [hScan] at h hRun
      obtain ⟨hDot, hLen⟩ := hRun
      have hKept : (if σ.dotPos = toSize ((σ.hostLen : Int) - 1) then
          toSize ((σ.hostLen : Int) - 1) else σ.hostLen) ≤ v.length := by
        split_ifs with hSame
        · exact hSame ▸ hDot
        · exact hLen
      simp only at h
      generalize (if σ.dotPos = toSize ((σ.hostLen : Int) - 1) then
        toSize ((σ.hostLen : Int) - 1) else σ.hostLen) = m at h hKept
      split_ifs at h
      obtain rfl := Option.some.inj h
      exact hKept

/-- `http_process_host` computes `hostLength` on a value in memory. -/
theorem httpProcessHost_eq {mem : Mem} {a : Nat} {v : List UInt8} (hBound : v.length < 2 ^ 31)
    (hMem : slice mem a (a + v.length) = v) :
    (httpProcessHost mem ⟨v.length, a⟩).2 =
      match hostLength v with
      | none => (mem, ⟨v.length, a⟩)
      | some n => (lowerRange mem a v.length, ⟨n, a⟩) := by
  have hKept := fun n => hostLength_le (v := v) (n := n)
  unfold httpProcessHost hostLength
  unfold hostLength at hKept
  simp only [toSize_of_nat (by omega : v.length < 2 ^ 64), Int.toNat_natCast, hMem,
    lowcaseKeyCopyFromOrigin_eq]
  cases hScan : run hostByteStep 0 ⟨.usual, v.length, v.length⟩ v with
  | halted _ _ => rfl
  | pending σ =>
      simp only [hScan] at hKept ⊢
      generalize (if σ.dotPos = toSize ((σ.hostLen : Int) - 1) then
        toSize ((σ.hostLen : Int) - 1) else σ.hostLen) = n at hKept ⊢
      split_ifs at hKept ⊢
      · rfl
      · have hLe := hKept n rfl
        simp only [wrap32_of_bounds (x := (n : Int)) (by omega) (by omega)]

theorem HeaderText.keptLength_le (l : HeaderText) :
    l.keptLength ≤ l.value.length := by
  unfold keptLength
  split_ifs
  · cases hHost : hostLength l.value with
    | none => exact Nat.le_refl _
    | some n => exact hostLength_le hHost
  · exact Nat.le_refl _

/-- The element list of a head: `fields` are its keys and values in order, and
its blocks are the ones from `base` on. -/
structure ElementList (h : Head) (base : Nat) (fields : List (LtString × LtString)) : Prop where
  row : Arena.Row LtHttpHeaderElement.next (fun f e => e.key = f.1 ∧ e.value = f.2) h.elements base fields
  head : h.req.elementHead = if fields = [] then none else some base
  tail : h.req.elementTail = if fields = [] then none else some (base + fields.length - 1)

theorem Head.clearElements_list (h : Head) : ElementList h.clearElements h.elements.fresh [] where
  row := .nil h.elements
  head := rfl
  tail := rfl

/-- An element is processed as its line's hash says. -/
theorem httpProcessElement_line (mem : Mem) {r : RequestT} {l : HeaderText} {a : Nat}
    {e : LtHttpHeaderElement} (hHash : e.hash = nameHash l.name) (hValue : e.value = ⟨l.value.length, a⟩)
    (hMem : slice mem a (a + l.value.length) = l.value) (hBound : l.value.length < 2 ^ 31) :
    (httpProcessElement mem r e).1 =
        (if l.NamesHost ∧ (hostLength l.value).isSome then lowerRange mem a l.value.length else mem) ∧
      (httpProcessElement mem r e).2.key = e.key ∧
      (httpProcessElement mem r e).2.value = ⟨l.keptLength, a⟩ ∧
      (httpProcessElement mem r e).2.next = e.next := by
  have hHost := httpProcessHost_eq hBound hMem
  unfold HeaderText.keptLength
  by_cases hNames : l.NamesHost
  · have hSame : e.hash = hostHash := hHash.trans hNames
    cases hLength : hostLength l.value with
    | none =>
        rw [hLength] at hHost
        simp [httpProcessElement, hSame, hNames, hValue, hHost]
    | some n =>
        rw [hLength] at hHost
        simp [httpProcessElement, hSame, hNames, hValue, hHost]
  · have hOther : e.hash ≠ hostHash := fun h => hNames (hHash.symm.trans h)
    simp [httpProcessElement, hOther, hNames, hValue]

theorem HeaderText.value_of_slice {mem : Mem} {p : Nat} {l : HeaderText}
    (hMem : slice mem p (p + l.bytes.length) = l.bytes) :
    slice (lowerRange mem p l.name.length) (p + l.valueOffset) (p + l.valueOffset + l.value.length) =
      l.value := by
  have hWhole : slice mem p (p + l.bytes.length) = l.bytes ++ [] := by rw [List.append_nil, hMem]
  have hSlices := HeaderText.slice_name hWhole
  refine Eq.trans (slice_congr fun x hx _ => lowerRange_of_le ?_) hSlices.2
  have hOffset := l.value_end_le.1
  omega

/-- Appending the block `e` to a list of elements: the first one becomes the
head, every later one is linked behind the tail. -/
theorem ElementList.append {h h' : Head} {base : Nat} {fields : List (LtString × LtString)}
    {f : LtString × LtString} {e : LtHttpHeaderElement} (hList : ElementList h base fields)
    (hHead : h'.req.elementHead = some (h.req.elementHead.getD (base + fields.length)))
    (hTail : h'.req.elementTail = some (base + fields.length))
    (hElements : h'.elements = (match h.req.elementTail with
      | some p => h.elements.alloc.2.modify p fun t => { t with next := some h.elements.fresh }
      | none => h.elements.alloc.2).set h.elements.fresh e)
    (hKey : e.key = f.1) (hValue : e.value = f.2) : ElementList h' base (fields ++ [f]) := by
  obtain ⟨hRow, hHead₀, hTail₀⟩ := hList
  have hFresh := hRow.fresh
  have hNe : fields ++ [f] ≠ [] := by simp
  have hLength : (fields ++ [f]).length = fields.length + 1 := by simp
  refine ⟨hRow.append ?_ ⟨e, ?_, hKey, hValue⟩ ?_ ?_, ?_, ?_⟩
  · rw [hElements, Arena.fresh_set]
    cases h.req.elementTail <;> simp
  · rw [hElements]
    refine Arena.get?_set_same e ?_
    cases h.req.elementTail <;> simp
  · intro i t hi ht
    rw [hElements, Arena.get?_set_other e (by omega), hTail₀]
    split_ifs with hEmpty
    · exact (Arena.get?_alloc (by omega)).trans ht
    · simp only
      rw [Arena.get?_modify_other _ (by omega), Arena.get?_alloc (by omega), ht]
  · intro hFields t ht
    have hPos := List.length_pos_iff.mpr hFields
    refine ⟨{ t with next := some h.elements.fresh }, ?_, fun _ hKeep => hKeep, rfl⟩
    rw [hElements, Arena.get?_set_other e (by omega), hTail₀, if_neg hFields, ← hFresh]
    simp only
    rw [Arena.get?_modify_same, Arena.get?_alloc (by omega), ht]
    rfl
  · rw [if_neg hNe, hHead, hHead₀]
    split_ifs with hEmpty <;> simp [hEmpty]
  · rw [if_neg hNe, hTail, hLength]
    rfl

/-- A valid line appends its element to the list, in a new block behind the tail, and
the memory is changed in this line only. -/
theorem Head.addElement_list {h : Head} {prev : Option Nat} {base q : Nat} {n : Int} {r r' : RequestT}
    {fields : List (LtString × LtString)} {l : HeaderText}
    (hList : ElementList h base fields) (hPrev : prev = h.req.elementTail)
    (hReads : ReadsLine l q r r') (hReq : h.req = { r' with requestLength := n })
    (hValid : l.Valid) (hBound : l.bytes.length < 2 ^ 31)
    (hMem : slice h.mem q (q + l.bytes.length) = l.bytes) :
    ElementList (h.addElement prev).1 base (fields ++ [l.element q]) ∧
      (h.addElement prev).2 = (h.addElement prev).1.req.elementTail ∧
      (h.addElement prev).1.mem = l.lower q h.mem := by
  have hLe := l.value_end_le
  have hNameLe := l.name_length_le
  have hKey : ptrDiff h.req.headerNameEnd q = (l.name.length : Int) := by
    rw [hReq]
    simp only [hReads.nameEnd]
    rw [ptrDiff_of_le (by omega) (by omega), Nat.add_sub_cancel_left]
  have hLength : ptrDiff h.req.headerEnd (q + l.valueOffset) = (l.value.length : Int) := by
    rw [hReq]
    simp only [hReads.valueEnd]
    rw [ptrDiff_of_le (by omega) (by omega), Nat.add_sub_cancel_left]
  have hStart : h.req.headerNameStart = q := by
    rw [hReq]
    exact hReads.nameStart
  have hValueStart : h.req.headerStart = q + l.valueOffset := by
    rw [hReq]
    exact hReads.valueStart
  have hHash : h.req.headerHash = nameHash l.name := by
    rw [hReq]
    exact hReads.hash hValid
  have hProcess := fun next => httpProcessElement_line (lowerRange h.mem q l.name.length) (r := h.req)
    (l := l) (a := q + l.valueOffset)
    (e := { hash := h.req.headerHash, length := 0, key := ⟨l.name.length, q⟩
            value := ⟨l.value.length, q + l.valueOffset⟩, lowcaseKey := ⟨l.name.length, q⟩
            next := next }) hHash rfl (HeaderText.value_of_slice hMem) (by omega)
  have hLower : l.lower q h.mem =
      if l.NamesHost ∧ (hostLength l.value).isSome then
        lowerRange (lowerRange h.mem q l.name.length) (q + l.valueOffset) l.value.length
      else lowerRange h.mem q l.name.length := by
    rw [HeaderText.lower, if_pos hValid]
  unfold addElement
  simp only [hKey, hLength, hStart, hValueStart, lowcaseKeyCopyFromOrigin_eq, Int.toNat_natCast]
  refine ⟨?_, trivial, ?_⟩
  · refine hList.append (e := ?_) ?_ ?_ ?_ ?_ ?_
    · exact (httpProcessElement (lowerRange h.mem q l.name.length) h.req
        { hash := h.req.headerHash, length := 0, key := ⟨l.name.length, q⟩
          value := ⟨l.value.length, q + l.valueOffset⟩, lowcaseKey := ⟨l.name.length, q⟩
          next := if h.req.elementHead = none then (h.elements.junk h.elements.alloc.1).next
            else none }).2
    · simp only
      rw [hList.head]
      split_ifs <;> simp_all [Arena.alloc, hList.row.fresh]
    · simp only [Arena.alloc, hList.row.fresh]
    · by_cases hEmpty : fields = []
      · simp only [hPrev, hList.head, hList.tail, hEmpty, if_true]
        rfl
      · simp only [hPrev, hList.head, hList.tail, hEmpty, if_false, reduceCtorEq]
        rfl
    · exact (hProcess _).2.1
    · exact (hProcess _).2.2.1
  · rw [hLower]
    exact (hProcess _).1

/-- The loop at a line boundary, with the elements `fields` collected so far. -/
structure Collects (base : Nat) (fields : List (LtString × LtString)) (h : Head) (prev : Option Nat) :
    Prop where
  list : ElementList h base fields
  prev_eq : prev = h.req.elementTail

/-- One turn over a line: the frame, the elements and the memory. A line that is not
valid is passed over, and adds no element. -/
theorem headerTurn_collects {h : Head} (prev : Option Nat) {skip rest : List UInt8} {base : Nat}
    {fields : List (LtString × LtString)} (l : HeaderText) (hState : h.req.state = 0)
    (hUnread : h.buf.unread h.mem = skip ++ (l.bytes ++ rest))
    (hSkip : Skipped h.req.upstream skip) (hReply : h.req.upstream ≠ 0 → ¬ l.StartsReply)
    (hBound : l.bytes.length < 2 ^ 31) (hCollects : Collects base fields h prev) :
    ∃ h' prev', headerTurn (h, prev) = .again (h', prev') ∧
      TurnFrame h h' (h.buf.pos + skip.length + l.bytes.length) ∧
      Collects base
        (fields ++ if l.Valid then [l.element (h.buf.pos + skip.length)] else []) h' prev' ∧
      h'.mem = l.lower (h.buf.pos + skip.length) h.mem := by
  obtain ⟨h', prev', hAgain, hFrame⟩ := headerTurn_line prev l hState hUnread hSkip hReply
  obtain ⟨r', n, h₁, hReads, hHead, hTurn⟩ :=
    headerTurn_line_eq prev l hState hUnread hSkip hReply
  refine ⟨h', prev', hAgain, hFrame, ?_⟩
  obtain ⟨hList, hPrev⟩ := hCollects
  have hElementHead : r'.elementHead = h.req.elementHead := by
    have hField := congrArg RequestT.elementHead hReads.frame
    exact hField
  have hElementTail : r'.elementTail = h.req.elementTail := by
    have hField := congrArg RequestT.elementTail hReads.frame
    exact hField
  have hList₁ : ElementList h₁ base fields := by
    subst hHead
    exact ⟨hList.row, hElementHead.trans hList.head, hElementTail.trans hList.tail⟩
  have hPrev₁ : prev = h₁.req.elementTail := by
    subst hHead
    exact hPrev.trans hElementTail.symm
  rw [hTurn] at hAgain
  have hPair : (if l.Valid then h₁.addElement prev else (h₁, prev)) = (h', prev') :=
    (Turn.again.injEq _ _).mp hAgain
  by_cases hValid : l.Valid
  · rw [if_pos hValid] at hPair ⊢
    have hMem : slice h₁.mem (h.buf.pos + skip.length)
        (h.buf.pos + skip.length + l.bytes.length) = l.bytes := by
      have hWord := (slice_eq_append (slice_eq_append hUnread).2).1
      subst hHead
      exact hWord
    have hReq : h₁.req = { r' with requestLength := n } := by rw [hHead]
    obtain ⟨hAdded, hTail, hMem'⟩ := Head.addElement_list hList₁ hPrev₁ hReads hReq hValid hBound hMem
    rw [hPair] at hAdded hTail hMem'
    refine ⟨⟨hAdded, hTail⟩, hMem'.trans ?_⟩
    rw [hHead]
  · rw [if_neg hValid] at hPair ⊢
    rw [List.append_nil]
    obtain ⟨rfl, rfl⟩ := (Prod.mk.injEq _ _ _ _).mp hPair
    refine ⟨⟨hList₁, hPrev₁⟩, ?_⟩
    rw [HeaderText.lower, if_neg hValid, hHead]

/-- Over a header block the loop returns with one element for each valid line. -/
theorem headerLoop_collects {h : Head} (prev : Option Nat) {rest : List UInt8} {base : Nat}
    {fields : List (LtString × LtString)} (blk : HeaderBlock) (hState : h.req.state = 0)
    (hUnread : h.buf.unread h.mem = blk.bytes ++ rest) (hRead : blk.Readable h.req.upstream)
    (hBound : blk.bytes.length < 2 ^ 31) (hCollects : Collects base fields h prev) :
    ∃ h', Returns headerTurn (h, prev) h' ∧ TurnFrame h h' (h.buf.pos + blk.bytes.length) ∧
      ElementList h' base (fields ++ lineElements h.buf.pos blk.lines) ∧
      h'.mem = lowerLines h.buf.pos blk.lines h.mem := by
  have hLength : (HeaderBlock.linesBytes blk.lines).length < 2 ^ 31 := by
    simp only [HeaderBlock.bytes, List.length_append] at hBound
    omega
  -- the elements and the memory that the lines to come will lead to stay the same
  refine headerLoop_rule
    (I := fun lines g prev => (HeaderBlock.linesBytes lines).length < 2 ^ 31 ∧
      ∃ done, Collects base done g prev ∧
        done ++ lineElements g.buf.pos lines = fields ++ lineElements h.buf.pos blk.lines ∧
        lowerLines g.buf.pos lines g.mem = lowerLines h.buf.pos blk.lines h.mem)
    ?_ ?_ prev blk hState hUnread hRead ⟨hLength, fields, hCollects, rfl, rfl⟩
  · rintro g g' prev prev' skip rest l lines hs hu hSkip hReply hTurn hFrame ⟨hShort, done, hDone, hList, hMem⟩
    simp only [HeaderBlock.linesBytes, List.flatMap_cons, List.length_append] at hShort
    obtain ⟨g'', prev'', hTurn', -, hNext, hMem'⟩ := headerTurn_collects prev l hs hu hSkip hReply
      (by omega) hDone
    rw [hTurn, Turn.again.injEq, Prod.mk.injEq] at hTurn'
    obtain ⟨rfl, rfl⟩ := hTurn'
    have hPos : g'.buf.pos = g.buf.pos + skip.length + l.bytes.length := by rw [hFrame.buf]
    refine ⟨by unfold HeaderBlock.linesBytes; omega, _, hNext, ?_, ?_⟩
    · rw [List.append_assoc, hPos]
      exact hList
    · rw [hMem', hPos]
      exact hMem
  · rintro g prev r' pos - hFrame ⟨-, done, hDone, hList, hMem⟩
    have hElementHead : r'.elementHead = g.req.elementHead := by
      have hField := congrArg RequestT.elementHead hFrame
      exact hField
    have hElementTail : r'.elementTail = g.req.elementTail := by
      have hField := congrArg RequestT.elementTail hFrame
      exact hField
    rw [lineElements, List.append_nil] at hList
    rw [← hList]
    obtain ⟨hRow, hHead, hTail⟩ := hDone.list
    exact ⟨⟨hRow, hElementHead.trans hHead, hElementTail.trans hTail⟩, hMem⟩

end Leactor
