import Leactor.Http.Accepted

/-! What `http_process_request_headers` leaves behind: a list with one element
for each valid line, and a buffer in which only the names of these lines have
changed. -/
namespace Leactor

open Ascii Scan Loop Memory

/-- The elements from `element` on, along `next`, up to `tail`. `none` is a link
to no element, or a list that does not come to its tail. -/
def elementsOf (elements : Arena LtHttpHeaderElement) (tail : Option Nat) :
    Nat → Option Nat → Option (List LtHttpHeaderElement)
  | _, none => some []
  | 0, some _ => none
  | fuel + 1, some i =>
      match elements.get? i with
      | none => none
      | some e =>
          if some i = tail then some [e] else (elementsOf elements tail fuel e.next).map (e :: ·)

def placedLines : Nat → List (List UInt8 × HeaderText) → List (Nat × HeaderText)
  | _, [] => []
  | p, (skip, l) :: lines =>
      (if l.Valid then [(p + skip.length, l)] else []) ++
        placedLines (p + skip.length + l.bytes.length) lines

def InName (placed : List (Nat × HeaderText)) (x : Nat) : Prop :=
  ∃ f ∈ placed, f.1 ≤ x ∧ x < f.1 + f.2.name.length

structure HoldsLine (mem : Mem) (f : Nat × HeaderText) (e : LtHttpHeaderElement) : Prop where
  key : slice mem e.key.data (e.key.data + e.key.length.toNat) = f.2.name.map tolower
  value : slice mem e.value.data (e.value.data + e.value.length.toNat) = f.2.value
  place : e.key.data = f.1 ∧ e.value.data = f.1 + f.2.valueOffset
  hash : e.hash = nameHash f.2.name

/-- The list holds the valid lines of the block in order, and no byte outside their
names has changed. -/
structure ListsLines (h h' : Head) (placed : List (Nat × HeaderText)) : Prop where
  list : ∃ es, elementsOf h'.elements h'.req.elementTail h'.elements.fresh h'.req.elementHead = some es ∧
    List.Forall₂ (HoldsLine h'.mem) placed es
  mem : ∀ x, ¬ InName placed x → h'.mem x = h.mem x

theorem lineElements_eq (p : Nat) (lines : List (List UInt8 × HeaderText)) :
    lineElements p lines = (placedLines p lines).map fun f => f.2.element f.1 := by
  induction lines generalizing p with
  | nil => rfl
  | cons e lines ih =>
      obtain ⟨skip, l⟩ := e
      rw [lineElements, placedLines, ih, List.map_append]
      congr 1
      split_ifs <;> rfl

theorem placedLines_bounds {p : Nat} {lines : List (List UInt8 × HeaderText)} {f : Nat × HeaderText}
    (hf : f ∈ placedLines p lines) :
    p ≤ f.1 ∧ f.1 + f.2.bytes.length ≤ p + (HeaderBlock.linesBytes lines).length := by
  induction lines generalizing p with
  | nil => exact absurd hf List.not_mem_nil
  | cons e lines ih =>
      obtain ⟨skip, l⟩ := e
      rw [placedLines, List.mem_append] at hf
      simp only [HeaderBlock.linesBytes, List.flatMap_cons, List.length_append]
      rcases hf with hf | hf
      · split_ifs at hf
        · rw [List.mem_singleton.mp hf]
          simp only
          omega
        · exact absurd hf List.not_mem_nil
      · have hRest := ih hf
        unfold HeaderBlock.linesBytes at hRest
        omega

/-- Two valid lines are the same line or lie apart. -/
theorem placedLines_apart {p : Nat} {lines : List (List UInt8 × HeaderText)} {f g : Nat × HeaderText}
    (hf : f ∈ placedLines p lines) (hg : g ∈ placedLines p lines) :
    f = g ∨ f.1 + f.2.bytes.length ≤ g.1 ∨ g.1 + g.2.bytes.length ≤ f.1 := by
  induction lines generalizing p with
  | nil => exact absurd hf List.not_mem_nil
  | cons e lines ih =>
      obtain ⟨skip, l⟩ := e
      rw [placedLines, List.mem_append] at hf hg
      have hHead : ∀ {f : Nat × HeaderText}, f ∈ (if l.Valid then [(p + skip.length, l)] else []) →
          f = (p + skip.length, l) := by
        intro f hf
        split_ifs at hf
        · exact List.mem_singleton.mp hf
        · exact absurd hf List.not_mem_nil
      rcases hf with hf | hf <;> rcases hg with hg | hg
      · exact Or.inl ((hHead hf).trans (hHead hg).symm)
      · have hLow := (placedLines_bounds hg).1
        rw [hHead hf]
        exact Or.inr (Or.inl hLow)
      · have hLow := (placedLines_bounds hf).1
        rw [hHead hg]
        exact Or.inr (Or.inr hLow)
      · exact ih hf hg

/-- Lower-casing changes the names of the valid lines and nothing else. No line may name
a host here, as `http_process_host` rewrites the value of such a line. -/
theorem lowerLines_eq {p : Nat} {lines : List (List UInt8 × HeaderText)} (mem : Mem)
    (hHost : ∀ e ∈ lines, ¬ e.2.NamesHost) (x : Nat) :
    (InName (placedLines p lines) x → lowerLines p lines mem x = tolower (mem x)) ∧
      (¬ InName (placedLines p lines) x → lowerLines p lines mem x = mem x) := by
  induction lines generalizing p mem with
  | nil => exact ⟨fun ⟨_, hf, _⟩ => (nomatch hf), fun _ => rfl⟩
  | cons e lines ih =>
      obtain ⟨skip, l⟩ := e
      rw [List.forall_mem_cons] at hHost
      obtain ⟨hIn, hOut⟩ := ih (p := p + skip.length + l.bytes.length) (l.lower (p + skip.length) mem) hHost.2
      have hLower : l.lower (p + skip.length) mem =
          if l.Valid then lowerRange mem (p + skip.length) l.name.length else mem := by
        unfold HeaderText.lower
        by_cases hValid : l.Valid
        · rw [if_pos hValid, if_pos hValid, if_neg fun h => hHost.1 h.1]
        · rw [if_neg hValid, if_neg hValid]
      have hLength := l.name_length_le
      rw [lowerLines, placedLines]
      by_cases hLater : InName (placedLines (p + skip.length + l.bytes.length) lines) x
      · have hKeep : l.lower (p + skip.length) mem x = mem x := by
          obtain ⟨f, hf, hLow, -⟩ := hLater
          have hBound := (placedLines_bounds hf).1
          rw [hLower]
          split_ifs
          · exact lowerRange_of_le (by omega)
          · rfl
        refine ⟨fun _ => (hIn hLater).trans (by rw [hKeep]), fun hNot => absurd ?_ hNot⟩
        obtain ⟨f, hf, hRange⟩ := hLater
        exact ⟨f, List.mem_append_right _ hf, hRange⟩
      · rw [hOut hLater, hLower]
        have hHere : InName ((if l.Valid then [(p + skip.length, l)] else []) ++
            placedLines (p + skip.length + l.bytes.length) lines) x ↔
            l.Valid ∧ p + skip.length ≤ x ∧ x < p + skip.length + l.name.length := by
          constructor
          · rintro ⟨f, hf, hRange⟩
            rcases List.mem_append.mp hf with hf | hf
            · split_ifs at hf with hValid
              · rw [List.mem_singleton.mp hf] at hRange
                exact ⟨hValid, hRange⟩
              · exact absurd hf List.not_mem_nil
            · exact absurd ⟨f, hf, hRange⟩ hLater
          · rintro ⟨hValid, hRange⟩
            exact ⟨_, List.mem_append_left _ (by rw [if_pos hValid]; exact List.mem_singleton_self _), hRange⟩
        rw [hHere]
        constructor
        · rintro ⟨hValid, hRange⟩
          rw [if_pos hValid, lowerRange, if_pos hRange]
        · intro hNot
          split_ifs with hValid
          · rw [lowerRange, if_neg fun hRange => hNot ⟨hValid, hRange⟩]
          · rfl

/-- The hashes of the elements from `base` on. -/
structure HashesFrom (base : Nat) (hashes : List UInt32) (elements : Arena LtHttpHeaderElement) : Prop where
  fresh : elements.fresh = base + hashes.length
  cell : ∀ i x, hashes[i]? = some x → ∃ e, elements.get? (base + i) = some e ∧ e.hash = x

theorem httpProcessElement_hash (mem : Mem) (r : RequestT) (e : LtHttpHeaderElement) :
    (httpProcessElement mem r e).2.hash = e.hash := by
  simp only [httpProcessElement]
  split_ifs <;> rfl

/-- The elements with the new block linked behind `prev`. -/
def Head.linkElement (h : Head) (prev : Option Nat) : Arena LtHttpHeaderElement :=
  match prev with
  | some p =>
      if h.req.elementHead = none then h.elements.alloc.2
      else h.elements.alloc.2.modify p fun e => { e with next := some h.elements.fresh }
  | none => h.elements.alloc.2

/-- The link changes no hash. -/
theorem Head.linkElement_hash (h : Head) (prev : Option Nat) :
    (h.linkElement prev).fresh = h.elements.fresh + 1 ∧
      ∀ i c, h.elements.get? i = some c → ∃ c', (h.linkElement prev).get? i = some c' ∧ c'.hash = c.hash := by
  have hOld : ∀ i c, h.elements.get? i = some c → h.elements.alloc.2.get? i = some c := fun i c hc =>
    (Arena.get?_alloc (Arena.lt_fresh hc)).trans hc
  cases prev with
  | none => exact ⟨Arena.fresh_alloc _, fun i c hc => ⟨c, hOld i c hc, rfl⟩⟩
  | some p =>
      simp only [linkElement]
      split_ifs
      · exact ⟨Arena.fresh_alloc _, fun i c hc => ⟨c, hOld i c hc, rfl⟩⟩
      · refine ⟨(Arena.fresh_modify _ _ _).trans (Arena.fresh_alloc _), fun i c hc => ?_⟩
        by_cases hSame : p = i
        · subst hSame
          exact ⟨{ c with next := some h.elements.fresh },
            by rw [Arena.get?_modify_same, hOld p c hc]; rfl, rfl⟩
        · exact ⟨c, by rw [Arena.get?_modify_other _ hSame, hOld i c hc], rfl⟩

theorem Head.addElement_elements (h : Head) (prev : Option Nat) :
    ∃ e : LtHttpHeaderElement, e.hash = h.req.headerHash ∧
      (h.addElement prev).1.elements = (h.linkElement prev).set h.elements.fresh e :=
  ⟨_, httpProcessElement_hash _ _ _, rfl⟩

/-- A new element has the hash that the parser left in the request. -/
theorem Head.addElement_hashes {h : Head} {base : Nat} {hashes : List UInt32} (prev : Option Nat)
    (hHashes : HashesFrom base hashes h.elements) :
    HashesFrom base (hashes ++ [h.req.headerHash]) (h.addElement prev).1.elements := by
  obtain ⟨hFresh, hCell⟩ := hHashes
  obtain ⟨hGrown, hKept⟩ := h.linkElement_hash prev
  obtain ⟨e, hHash, hElements⟩ := h.addElement_elements prev
  rw [hElements]
  refine ⟨by rw [Arena.fresh_set, hGrown, hFresh, List.length_append, List.length_singleton, Nat.add_assoc], ?_⟩
  intro i x hx
  rcases Nat.lt_trichotomy i hashes.length with hi | rfl | hi
  · rw [List.getElem?_append_left hi] at hx
    obtain ⟨c, hc, rfl⟩ := hCell i x hx
    obtain ⟨c', hc', hSame⟩ := hKept _ c hc
    exact ⟨c', by rw [Arena.get?_set_other _ (by omega), hc'], hSame⟩
  · rw [List.getElem?_append_right (Nat.le_refl _), Nat.sub_self] at hx
    obtain rfl : h.req.headerHash = x := by simpa using hx
    exact ⟨e, by rw [← hFresh]; exact Arena.get?_set_same e (by omega), hHash⟩
  · rw [List.getElem?_eq_none (by simp only [List.length_append, List.length_singleton]; omega)] at hx
    exact nomatch hx

/-- One turn over a line adds the hash of its name, if it is valid. -/
theorem headerTurn_hashes {h h' : Head} {prev prev' : Option Nat} {skip rest : List UInt8} {base : Nat}
    {hashes : List UInt32} (l : HeaderText) (hState : h.req.state = 0)
    (hUnread : h.buf.unread h.mem = skip ++ (l.bytes ++ rest)) (hSkip : Skipped h.req.upstream skip)
    (hReply : h.req.upstream ≠ 0 → ¬ l.StartsReply) (hTurn : headerTurn (h, prev) = .again (h', prev'))
    (hHashes : HashesFrom base hashes h.elements) :
    HashesFrom base (hashes ++ if l.Valid then [nameHash l.name] else []) h'.elements := by
  obtain ⟨r', n, h₁, hReads, hHead, hEq⟩ := headerTurn_line_eq prev l hState hUnread hSkip hReply
  rw [hTurn, Turn.again.injEq] at hEq
  have hFirst : HashesFrom base hashes h₁.elements := by
    rw [hHead]
    exact hHashes
  by_cases hValid : l.Valid
  · rw [if_pos hValid] at hEq ⊢
    have hHash : h₁.req.headerHash = nameHash l.name := by
      rw [hHead]
      exact hReads.hash hValid
    have hAdded := Head.addElement_hashes prev hFirst
    rwa [hHash, ← hEq] at hAdded
  · rw [if_neg hValid] at hEq ⊢
    rw [List.append_nil, (Prod.mk.injEq _ _ _ _).mp hEq |>.1]
    exact hFirst

def lineHashes (p : Nat) (lines : List (List UInt8 × HeaderText)) : List UInt32 :=
  (placedLines p lines).map fun f => nameHash f.2.name

theorem lineHashes_cons (p : Nat) (skip : List UInt8) (l : HeaderText)
    (lines : List (List UInt8 × HeaderText)) :
    lineHashes p ((skip, l) :: lines) =
      (if l.Valid then [nameHash l.name] else []) ++ lineHashes (p + skip.length + l.bytes.length) lines := by
  rw [lineHashes, placedLines, List.map_append]
  congr 1
  split_ifs <;> rfl

/-- The loop leaves an element for each valid line, with the hash of its name. -/
theorem headerLoop_hashes {h : Head} (prev : Option Nat) {rest : List UInt8} (blk : HeaderBlock)
    (hState : h.req.state = 0) (hUnread : h.buf.unread h.mem = blk.bytes ++ rest)
    (hRead : blk.Readable h.req.upstream) :
    ∃ h', Returns headerTurn (h, prev) h' ∧ TurnFrame h h' (h.buf.pos + blk.bytes.length) ∧
      HashesFrom h.elements.fresh (lineHashes h.buf.pos blk.lines) h'.elements := by
  refine headerLoop_rule
    (I := fun lines g _ => ∃ done, HashesFrom h.elements.fresh done g.elements ∧
      done ++ lineHashes g.buf.pos lines = lineHashes h.buf.pos blk.lines)
    ?_ ?_ prev blk hState hUnread hRead ⟨[], ⟨rfl, nofun⟩, rfl⟩
  · rintro g g' prev prev' skip rest l lines hs hu hSkip hReply hTurn hFrame ⟨done, hDone, hAll⟩
    refine ⟨_, headerTurn_hashes l hs hu hSkip hReply hTurn hDone, ?_⟩
    rw [← hAll, hFrame.buf, lineHashes_cons, List.append_assoc]
  · rintro g prev r' pos - hFrame ⟨done, hDone, hAll⟩
    rw [← hAll, lineHashes, placedLines, List.map_nil, List.append_nil]
    exact hDone

/-- Following the links of a row up to its last block. -/
theorem elementsOf_row {β : Type*} {P : β → LtHttpHeaderElement → Prop}
    {elements : Arena LtHttpHeaderElement} {base : Nat} {xs : List β}
    (hRow : Arena.Row LtHttpHeaderElement.next P elements base xs) (fuel : Nat) {i : Nat}
    (hi : i < xs.length) (hFuel : xs.length ≤ i + fuel) :
    ∃ es, elementsOf elements (some (base + xs.length - 1)) fuel (some (base + i)) = some es ∧
      List.Forall₂ P (xs.drop i) es := by
  induction fuel generalizing i with
  | zero => omega
  | succ fuel ih =>
      obtain ⟨e, he, hP, hNext⟩ := hRow.cell i _ (List.getElem?_eq_getElem hi)
      rw [elementsOf, he, List.drop_eq_getElem_cons hi]
      simp only
      by_cases hLast : i + 1 = xs.length
      · rw [if_pos (by congr 1; omega), List.drop_of_length_le (by omega)]
        exact ⟨[e], rfl, .cons hP .nil⟩
      · obtain ⟨es, hRest, hAll⟩ := ih (i := i + 1) (by omega) (by omega)
        rw [if_neg (by rw [Option.some.injEq]; omega), hNext (by omega), Nat.add_assoc, hRest]
        exact ⟨e :: es, rfl, .cons hP hAll⟩

/-- A whole line stands in the buffer at its place. -/
theorem placedLines_slice {mem : Mem} {p q : Nat} {lines : List (List UInt8 × HeaderText)}
    {rest : List UInt8} (hMem : slice mem p q = HeaderBlock.linesBytes lines ++ rest)
    {f : Nat × HeaderText} (hf : f ∈ placedLines p lines) :
    slice mem f.1 (f.1 + f.2.bytes.length) = f.2.bytes := by
  induction lines generalizing p with
  | nil => exact absurd hf List.not_mem_nil
  | cons e lines ih =>
      obtain ⟨skip, l⟩ := e
      simp only [HeaderBlock.linesBytes, List.flatMap_cons, List.append_assoc] at hMem
      obtain ⟨hLine, hTail⟩ := slice_eq_append (slice_eq_append hMem).2
      rw [placedLines, List.mem_append] at hf
      rcases hf with hf | hf
      · split_ifs at hf
        · rw [List.mem_singleton.mp hf]
          exact hLine
        · exact absurd hf List.not_mem_nil
      · exact ih hTail hf

theorem mem_of_placedLines {p : Nat} {lines : List (List UInt8 × HeaderText)} {f : Nat × HeaderText}
    (hf : f ∈ placedLines p lines) : ∃ skip, (skip, f.2) ∈ lines := by
  induction lines generalizing p with
  | nil => exact absurd hf List.not_mem_nil
  | cons e lines ih =>
      obtain ⟨skip, l⟩ := e
      rw [placedLines, List.mem_append] at hf
      rcases hf with hf | hf
      · split_ifs at hf
        · rw [List.mem_singleton.mp hf]
          exact ⟨skip, List.mem_cons_self⟩
        · exact absurd hf List.not_mem_nil
      · obtain ⟨skip', hMem⟩ := ih hf
        exact ⟨skip', List.mem_cons_of_mem _ hMem⟩

/-- What an element's slices read when the loop is through with the block. The lines
behind this one do not reach back into its bytes. -/
theorem holdsLine_of_element {mem : Mem} {p q : Nat} {lines : List (List UInt8 × HeaderText)}
    {rest : List UInt8} (hMem : slice mem p q = HeaderBlock.linesBytes lines ++ rest)
    (hHost : ∀ e ∈ lines, ¬ e.2.NamesHost) {f : Nat × HeaderText} (hf : f ∈ placedLines p lines)
    {e : LtHttpHeaderElement} (hKey : e.key = (f.2.element f.1).1) (hValue : e.value = (f.2.element f.1).2)
    (hHash : e.hash = nameHash f.2.name) : HoldsLine (lowerLines p lines mem) f e := by
  have hWhole : slice mem f.1 (f.1 + f.2.bytes.length) = f.2.bytes ++ [] := by
    rw [List.append_nil]
    exact placedLines_slice hMem hf
  obtain ⟨hName, hLineValue⟩ := HeaderText.slice_name hWhole
  have hEnd := f.2.value_end_le
  have hNotHost : ¬ f.2.NamesHost := by
    obtain ⟨skip, hSkip⟩ := mem_of_placedLines hf
    exact hHost (skip, f.2) hSkip
  have hKept : f.2.keptLength = f.2.value.length := by
    unfold HeaderText.keptLength
    rw [if_neg hNotHost]
  have hElement : f.2.element f.1 = (⟨f.2.name.length, f.1⟩, ⟨f.2.value.length, f.1 + f.2.valueOffset⟩) := by
    rw [HeaderText.element, hKept]
  rw [hElement] at hKey hValue
  refine ⟨?_, ?_, ⟨by rw [hKey], by rw [hValue]⟩, hHash⟩
  · rw [hKey]
    simp only [Int.toNat_natCast]
    have hLower : f.2.name.map tolower = (slice mem f.1 (f.1 + f.2.name.length)).map tolower := by
      rw [hName]
    rw [hLower, slice, slice, List.map_map]
    refine List.map_congr_left fun x hx => ?_
    rw [List.mem_range'_1] at hx
    exact (lowerLines_eq mem hHost x).1 ⟨f, hf, hx.1, by omega⟩
  · rw [hValue]
    simp only [Int.toNat_natCast]
    refine Eq.trans (slice_congr fun x hLow hHigh => ?_) hLineValue
    refine (lowerLines_eq mem hHost x).2 ?_
    rintro ⟨g, hg, hRange⟩
    have hLength := g.2.name_length_le
    rcases placedLines_apart hf hg with rfl | hApart | hApart <;> omega

end Leactor
