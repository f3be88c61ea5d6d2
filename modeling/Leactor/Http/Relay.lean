import Leactor.Http.HeaderList
import Leactor.Http.Slices

/-! Header blocks on their way through the proxy: what the header loop leaves of
a block in the buffer, and what the chain's slices make of it. -/
namespace Leactor

open Ascii Scan Loop Memory

theorem tolower_plain : ∀ c : UInt8, IsPlain c → IsPlain (tolower c) := by
  apply forall_byte
  decide +kernel

theorem tolower_ne_colon : ∀ c : UInt8, c ≠ colon → tolower c ≠ colon := by
  apply forall_byte
  decide +kernel

theorem tolower_eq_sp : ∀ c : UInt8, tolower c = sp → c = sp := by
  apply forall_byte
  decide +kernel

theorem tolower_nameByte : ∀ c : UInt8, IsNameByte (tolower c) ↔ IsNameByte c := by
  apply forall_byte
  decide +kernel

/-- Lower-casing touches none of the bytes that `http_process_host` looks for. -/
theorem tolower_host : ∀ c : UInt8, (tolower c = dot ↔ c = dot) ∧ (tolower c = colon ↔ c = colon) ∧
    (tolower c = lbracket ↔ c = lbracket) ∧ (tolower c = rbracket ↔ c = rbracket) ∧
    (tolower c = nul ↔ c = nul) ∧ (tolower c = slash ↔ c = slash) := by
  apply forall_byte
  decide +kernel

theorem hostByteStep_tolower (p : Nat) (σ : HostScan) (c : UInt8) :
    hostByteStep p σ (tolower c) = hostByteStep p σ c := by
  obtain ⟨hDot, hColon, hLeft, hRight, hNul, hSlash⟩ := tolower_host c
  simp only [hostByteStep, hDot, hColon, hLeft, hRight, hNul, hSlash]

theorem hostLength_tolower (v : List UInt8) : hostLength (v.map tolower) = hostLength v := by
  have hRun : ∀ p σ w, run hostByteStep p σ (w.map tolower) = run hostByteStep p σ w := by
    intro p σ w
    induction w generalizing p σ with
    | nil => rfl
    | cons c w ih => simp only [List.map_cons, run, hostByteStep_tolower, ih]
  rw [hostLength, hostLength, List.length_map, hRun]

theorem nameHash_tolower (w : List UInt8) : nameHash (w.map tolower) = nameHash w := by
  simp only [nameHash, List.foldl_map, tolower_tolower]

def FieldText.lower (f : FieldText) : FieldText where
  before := f.before
  value := f.value.map tolower
  after := f.after
  plain := by
    simp only [List.mem_map, forall_exists_index, and_imp, forall_apply_eq_imp_iff₂]
    exact fun c hc => tolower_plain c (f.plain c hc)
  head_ne := by
    rw [List.head?_map]
    intro hHead
    obtain ⟨c, hc, hSp⟩ := Option.map_eq_some_iff.mp hHead
    exact f.head_ne (by rw [hc, tolower_eq_sp c hSp])
  last_ne := by
    rw [List.getLast?_map]
    intro hLast
    obtain ⟨c, hc, hSp⟩ := Option.map_eq_some_iff.mp hLast
    exact f.last_ne (by rw [hc, tolower_eq_sp c hSp])
  after_eq hNil := f.after_eq (List.map_eq_nil_iff.mp hNil)

namespace HeaderText

def LowersValue (l : HeaderText) : Prop := l.NamesHost ∧ (hostLength l.value).isSome

instance : DecidablePred LowersValue := fun _ => inferInstanceAs (Decidable (_ ∧ _))

/-- What the header loop makes of a valid line in the buffer. -/
def lowered (l : HeaderText) : HeaderText where
  first := tolower l.first
  rest := l.rest.map tolower
  field := if l.LowersValue then l.field.map FieldText.lower else l.field
  crs := l.crs
  first_plain := tolower_plain _ l.first_plain
  rest_plain := by
    simp only [List.mem_map, forall_exists_index, and_imp, forall_apply_eq_imp_iff₂]
    exact fun c hc => ⟨tolower_plain c (l.rest_plain c hc).1, tolower_ne_colon c (l.rest_plain c hc).2⟩

/-- What a chain makes of a line: the name with the two bytes behind it, and the
value with the rest of its line. -/
def narrowed (l : HeaderText) : HeaderText where
  first := l.first
  rest := l.rest
  field := l.field.map fun f => { f with before := min f.before 1 }
  crs := match l.field with
    | none => l.crs
    | some f => l.crs + (1 - f.before)
  first_plain := l.first_plain
  rest_plain := l.rest_plain

/-- Between the name and the value, and behind the value. -/
def gapBytes (l : HeaderText) : List UInt8 :=
  match l.field with
  | none => []
  | some f => colon :: List.replicate f.before sp

def endBytes (l : HeaderText) : List UInt8 :=
  match l.field with
  | none => List.replicate l.crs cr ++ [lf]
  | some f => List.replicate f.after sp ++ (List.replicate l.crs cr ++ [lf])

theorem bytes_eq (l : HeaderText) : l.bytes = l.name ++ (l.gapBytes ++ (l.value ++ l.endBytes)) := by
  unfold bytes fieldBytes gapBytes value endBytes
  cases l.field <;> simp [FieldText.bytes]

theorem valueOffset_eq (l : HeaderText) : l.valueOffset = l.name.length + l.gapBytes.length := by
  unfold valueOffset gapBytes
  cases l.field
  · rfl
  · simp only [List.length_cons, List.length_replicate]
    omega

theorem lowered_name (l : HeaderText) : l.lowered.name = l.name.map tolower := rfl

theorem lowered_value (l : HeaderText) :
    l.lowered.value = if l.LowersValue then l.value.map tolower else l.value := by
  unfold value lowered
  split_ifs
  · cases l.field <;> rfl
  · rfl

theorem lowered_gapBytes (l : HeaderText) : l.lowered.gapBytes = l.gapBytes := by
  unfold gapBytes lowered
  split_ifs
  · cases l.field <;> rfl
  · rfl

theorem lowered_endBytes (l : HeaderText) : l.lowered.endBytes = l.endBytes := by
  unfold endBytes lowered
  split_ifs
  · cases l.field <;> rfl
  · rfl

theorem lowered_value_length (l : HeaderText) : l.lowered.value.length = l.value.length := by
  rw [lowered_value]
  split_ifs
  · rw [List.length_map]
  · rfl

theorem lowered_length (l : HeaderText) : l.lowered.bytes.length = l.bytes.length := by
  rw [bytes_eq, bytes_eq, lowered_name, lowered_gapBytes, lowered_endBytes]
  simp only [List.length_append, List.length_map, lowered_value_length]

theorem lowered_valueOffset (l : HeaderText) : l.lowered.valueOffset = l.valueOffset := by
  rw [valueOffset_eq, valueOffset_eq, lowered_name, lowered_gapBytes, List.length_map]

theorem lowered_valid (l : HeaderText) : l.lowered.Valid ↔ l.Valid := by
  simp only [Valid, lowered_name, List.mem_map, forall_exists_index, and_imp, forall_apply_eq_imp_iff₂,
    tolower_nameByte]

theorem lowered_namesHost (l : HeaderText) : l.lowered.NamesHost ↔ l.NamesHost := by
  rw [NamesHost, NamesHost, lowered_name, nameHash_tolower]

theorem lowered_hostLength (l : HeaderText) : hostLength l.lowered.value = hostLength l.value := by
  rw [lowered_value]
  split_ifs
  · exact hostLength_tolower _
  · rfl

theorem lowered_keptLength (l : HeaderText) : l.lowered.keptLength = l.keptLength := by
  simp only [keptLength, lowered_namesHost, lowered_hostLength, lowered_value_length]

theorem lowered_element (l : HeaderText) (p : Nat) : l.lowered.element p = l.element p := by
  rw [element, element, lowered_keptLength, lowered_valueOffset, lowered_name, List.length_map]

end HeaderText

theorem lowerRange_of_lt {mem : Mem} {a n x : Nat} (h : x < a) : lowerRange mem a n x = mem x := by
  unfold lowerRange
  rw [if_neg (by omega)]

theorem slice_lowerRange (mem : Mem) (a n : Nat) :
    slice (lowerRange mem a n) a (a + n) = (slice mem a (a + n)).map tolower := by
  rw [slice, slice, List.map_map]
  apply List.map_congr_left
  intro x hx
  rw [List.mem_range'_1] at hx
  rw [lowerRange, if_pos (by omega)]
  rfl

namespace HeaderText

/-- Outside a line nothing changes. -/
theorem lower_frame {mem : Mem} {p x : Nat} (l : HeaderText) (h : x < p ∨ p + l.bytes.length ≤ x) :
    l.lower p mem x = mem x := by
  have hName := l.name_length_le
  have hValue := l.value_end_le
  unfold lower
  rcases h with h | h
  · split_ifs <;> simp only [lowerRange_of_lt h, lowerRange_of_lt (show x < p + l.valueOffset by omega)]
  · split_ifs <;> simp only [lowerRange_of_le (show p + l.name.length ≤ x by omega),
      lowerRange_of_le (show p + l.valueOffset + l.value.length ≤ x by omega)]

theorem lower_eq {l : HeaderText} (hValid : l.Valid) (p : Nat) (mem : Mem) :
    l.lower p mem = if l.LowersValue then
      lowerRange (lowerRange mem p l.name.length) (p + l.valueOffset) l.value.length
    else lowerRange mem p l.name.length :=
  if_pos hValid

/-- A valid line in the buffer, after the loop: its name is in lower case, and so is its
value where it is taken for a host. -/
theorem lower_slice {mem : Mem} {p : Nat} (l : HeaderText) (hValid : l.Valid)
    (hMem : slice mem p (p + l.bytes.length) = l.bytes) :
    slice (l.lower p mem) p (p + l.bytes.length) = l.lowered.bytes := by
  have hOffset := l.valueOffset_eq
  have hLength := congrArg List.length l.bytes_eq
  simp only [List.length_append] at hLength
  obtain ⟨hName, hRest⟩ := slice_eq_append (hMem.trans l.bytes_eq)
  obtain ⟨hGap, hRest⟩ := slice_eq_append hRest
  obtain ⟨hValue, hEnd⟩ := slice_eq_append hRest
  rw [Nat.add_assoc p, ← hOffset] at hValue hEnd
  rw [bytes_eq l.lowered, lowered_name, lowered_gapBytes, lowered_endBytes]
  have hNarrow : ∀ x, p + l.name.length ≤ x → (x < p + l.valueOffset ∨ p + l.valueOffset + l.value.length ≤ x) →
      l.lower p mem x = mem x := by
    intro x hLow hOut
    rw [lower_eq hValid]
    split_ifs
    · rcases hOut with hOut | hOut
      · rw [lowerRange_of_lt hOut, lowerRange_of_le hLow]
      · rw [lowerRange_of_le hOut, lowerRange_of_le hLow]
    · exact lowerRange_of_le hLow
  refine slice_eq_append_of (by rw [List.length_map]; omega) ?_ (slice_eq_append_of
    (by rw [List.length_map]; omega) ?_ (slice_eq_append_of
      (by rw [List.length_map, lowered_value_length]; omega) ?_ ?_))
  · have hSame : slice (l.lower p mem) p (p + l.name.length) =
        slice (lowerRange mem p l.name.length) p (p + l.name.length) := by
      refine slice_congr fun x _ hHigh => ?_
      rw [lower_eq hValid]
      split_ifs
      · exact lowerRange_of_lt (by omega)
      · rfl
    rw [List.length_map, hSame, slice_lowerRange, hName]
  · rw [List.length_map, Nat.add_assoc, ← hOffset, ← hGap, Nat.add_assoc, ← hOffset]
    exact slice_congr fun x hLow hHigh => hNarrow x hLow (Or.inl hHigh)
  · rw [List.length_map, Nat.add_assoc p, ← hOffset, lowered_value_length, lowered_value]
    by_cases hLowers : l.LowersValue
    · rw [if_pos hLowers, lower_eq hValid, if_pos hLowers, slice_lowerRange,
        slice_congr fun x hLow _ => lowerRange_of_le (by omega),
        hValue]
    · rw [if_neg hLowers]
      refine Eq.trans (slice_congr fun x hLow _ => ?_) hValue
      rw [lower_eq hValid, if_neg hLowers]
      exact lowerRange_of_le (by omega)
  · rw [List.length_map, Nat.add_assoc p, ← hOffset, lowered_value_length, ← hEnd]
    exact slice_congr fun x hLow _ => hNarrow x (by omega) (Or.inr hLow)

end HeaderText

/-- A header line of a block, behind the loop. Only the valid ones change. -/
def lowerText (e : List UInt8 × HeaderText) : List UInt8 × HeaderText :=
  (e.1, if e.2.Valid then e.2.lowered else e.2)

def HeaderBlock.lowered (blk : HeaderBlock) : HeaderBlock := { blk with lines := blk.lines.map lowerText }

theorem lowerText_length (e : List UInt8 × HeaderText) : (lowerText e).2.bytes.length = e.2.bytes.length := by
  unfold lowerText
  split_ifs
  · exact e.2.lowered_length
  · rfl

theorem lowerText_valid (e : List UInt8 × HeaderText) : (lowerText e).2.Valid ↔ e.2.Valid := by
  unfold lowerText
  split_ifs
  · exact e.2.lowered_valid
  · rfl

theorem lowered_lines_length (lines : List (List UInt8 × HeaderText)) :
    (HeaderBlock.linesBytes (lines.map lowerText)).length = (HeaderBlock.linesBytes lines).length := by
  simp only [HeaderBlock.linesBytes, List.flatMap_map, List.length_flatMap, List.length_append, lowerText_length]
  rfl

/-- The elements of a block do not show whether it has been lower-cased. -/
theorem lineElements_lowered (p : Nat) (lines : List (List UInt8 × HeaderText)) :
    lineElements p (lines.map lowerText) = lineElements p lines := by
  induction lines generalizing p with
  | nil => rfl
  | cons e lines ih =>
      obtain ⟨skip, l⟩ := e
      have hLength := lowerText_length (skip, l)
      rw [List.map_cons, show lowerText (skip, l) = (skip, (lowerText (skip, l)).2) from rfl, lineElements,
        lineElements, hLength, ih]
      congr 1
      by_cases hValid : l.Valid
      · rw [if_pos ((lowerText_valid _).mpr hValid), if_pos hValid, lowerText, if_pos hValid,
          HeaderText.lowered_element]
      · rw [if_neg (mt (lowerText_valid _).mp hValid), if_neg hValid]

/-- Outside a block nothing changes. -/
theorem lowerLines_frame {mem : Mem} {p x : Nat} (lines : List (List UInt8 × HeaderText))
    (h : x < p ∨ p + (HeaderBlock.linesBytes lines).length ≤ x) : lowerLines p lines mem x = mem x := by
  induction lines generalizing p mem with
  | nil => rfl
  | cons e lines ih =>
      obtain ⟨skip, l⟩ := e
      simp only [HeaderBlock.linesBytes_cons, List.length_append] at h
      rw [lowerLines, ih (by omega)]
      exact l.lower_frame (by omega)

/-- The lines of a block in the buffer, after the loop. Lines that are skipped or not
valid keep their bytes. -/
theorem lowerLines_slice {mem : Mem} {p : Nat} (lines : List (List UInt8 × HeaderText))
    (hMem : slice mem p (p + (HeaderBlock.linesBytes lines).length) = HeaderBlock.linesBytes lines) :
    slice (lowerLines p lines mem) p (p + (HeaderBlock.linesBytes lines).length) =
      HeaderBlock.linesBytes (lines.map lowerText) := by
  induction lines generalizing p mem with
  | nil => simp [HeaderBlock.linesBytes]
  | cons e lines ih =>
      obtain ⟨skip, l⟩ := e
      have hLength := lowered_lines_length lines
      have hHere := lowerText_length (skip, l)
      rw [HeaderBlock.linesBytes_cons] at hMem ⊢
      rw [List.map_cons, show lowerText (skip, l) = (skip, (lowerText (skip, l)).2) from rfl,
        HeaderBlock.linesBytes_cons]
      simp only [List.length_append, ← Nat.add_assoc] at hMem hHere ⊢
      obtain ⟨hSkip, hRest⟩ := slice_eq_append hMem
      obtain ⟨hLine, hRest⟩ := slice_eq_append hRest
      rw [lowerLines]
      refine slice_eq_append_of (by omega) ?_ (slice_eq_append_of (by omega) ?_ ?_)
      · rw [slice_congr fun x _ hHigh => (lowerLines_frame lines (Or.inl (by omega))).trans
          (l.lower_frame (Or.inl hHigh)), hSkip]
      · rw [hHere, slice_congr fun x _ hHigh => lowerLines_frame lines (Or.inl hHigh), lowerText]
        by_cases hValid : l.Valid
        · rw [if_pos hValid]
          exact l.lower_slice hValid hLine
        · rw [if_neg hValid, HeaderText.lower, if_neg hValid]
          exact hLine
      · rw [hHere]
        refine ih ?_
        rw [slice_congr fun x hLow _ => l.lower_frame (Or.inr hLow)]
        exact hRest

def LtString.bytes (s : LtString) (mem : Mem) : List UInt8 := slice mem s.data (s.data + s.length.toNat)

/-- The names and values of the header list. `none` is a list that does not come to its tail. -/
def headerFields (h : Head) : Option (List (List UInt8 × List UInt8)) :=
  (elementsOf h.elements h.req.elementTail h.elements.fresh h.req.elementHead).map fun es =>
    es.map fun e => (e.key.bytes h.mem, e.value.bytes h.mem)

/-- The names and values of the valid lines, a host cut as `http_process_host` cuts it. -/
def lineFields (lines : List (List UInt8 × HeaderText)) : List (List UInt8 × List UInt8) :=
  lines.flatMap fun e => if e.2.Valid then [(e.2.name, e.2.value.take e.2.keptLength)] else []

theorem lineElements_bytes {mem : Mem} {p : Nat} (lines : List (List UInt8 × HeaderText))
    (hMem : slice mem p (p + (HeaderBlock.linesBytes lines).length) = HeaderBlock.linesBytes lines) :
    (lineElements p lines).map (fun f => (f.1.bytes mem, f.2.bytes mem)) = lineFields lines := by
  induction lines generalizing p with
  | nil => rfl
  | cons e lines ih =>
      obtain ⟨skip, l⟩ := e
      rw [HeaderBlock.linesBytes_cons] at hMem
      simp only [List.length_append, ← Nat.add_assoc] at hMem
      have hLine := (slice_eq_append hMem).2
      have hRest := (slice_eq_append hLine).2
      obtain ⟨hName, hValue⟩ := HeaderText.slice_name hLine
      rw [lineElements, lineFields, List.map_append, ih hRest, List.flatMap_cons, ← lineFields]
      congr 1
      by_cases hValid : l.Valid
      · rw [if_pos hValid, if_pos hValid, List.map_singleton, HeaderText.element, LtString.bytes, LtString.bytes,
          Int.toNat_natCast, Int.toNat_natCast, hName, slice_take l.keptLength_le, hValue]
      · rw [if_neg hValid, if_neg hValid, List.map_nil]

/-- The header list behind the loop, read back through its links: the fields of the
lowered lines, in their order. -/
theorem HeadersRead.fields {h h' : Head} {p q : Nat} {blk : HeaderBlock} {rest : List UInt8}
    (hRead : HeadersRead h h' p blk) (hMem : slice h.mem p q = blk.bytes ++ rest) :
    headerFields h' = some (lineFields blk.lowered.lines) := by
  rw [HeaderBlock.bytes, List.append_assoc] at hMem
  have hLines := lowerLines_slice blk.lines (slice_eq_append hMem).1
  rw [← hRead.mem, ← lowered_lines_length] at hLines
  have hFields := lineElements_bytes _ hLines
  rw [lineElements_lowered] at hFields
  obtain ⟨hRow, hHead, hTail⟩ := hRead.list
  rw [headerFields, hHead, hTail, HeaderBlock.lowered, ← hFields]
  by_cases hEmpty : lineElements p blk.lines = []
  · rw [if_pos hEmpty, if_pos hEmpty, hEmpty, elementsOf]
    rfl
  · have hFresh := hRow.fresh
    obtain ⟨es, hElements, hAll⟩ := elementsOf_row hRow h'.elements.fresh (i := 0)
      (List.length_pos_iff.mpr hEmpty) (by omega)
    rw [Nat.add_zero] at hElements
    rw [List.drop_zero] at hAll
    rw [if_neg hEmpty, if_neg hEmpty, hElements, Option.map_some, Option.some.injEq]
    clear hElements
    generalize lineElements p blk.lines = fields at hAll
    induction hAll with
    | nil => rfl
    | cons hSame _ ih => rw [List.map_cons, List.map_cons, hSame.1, hSame.2, ih]

/-- A line whose slices end where the builders expect them to: behind the name
stand a colon and a byte that is not of the value, and the value is kept whole. -/
structure HeaderText.Relayable (l : HeaderText) : Prop where
  spaced : ∃ f, l.field = some f ∧ (1 ≤ f.before ∨ f.value = [] ∧ 1 ≤ l.crs)
  whole : l.keptLength = l.value.length

/-- The lines of a block with `tail` more bytes, as the builders expect them: two
bytes from each value to the next line, and four from the last one to the end. -/
inductive Relays (tail : Nat) : List (List UInt8 × HeaderText) → Prop where
  | last {skip : List UInt8} {l : HeaderText} {back : List (List UInt8 × HeaderText)} (hValid : l.Valid)
      (hLine : l.Relayable) (hBack : ∀ e ∈ back, ¬ e.2.Valid)
      (hEnd : l.endBytes.length + (HeaderBlock.linesBytes back).length + tail = 4) :
      Relays tail ((skip, l) :: back)
  | valid {skip : List UInt8} {l : HeaderText} {lines : List (List UInt8 × HeaderText)} (hValid : l.Valid)
      (hLine : l.Relayable) (hEnd : l.endBytes.length = 2) (hRest : Relays tail lines) :
      Relays tail ((skip, l) :: lines)
  | invalid {skip : List UInt8} {l : HeaderText} {lines : List (List UInt8 × HeaderText)}
      (hValid : ¬ l.Valid) (hRest : Relays tail lines) : Relays tail ((skip, l) :: lines)

/-- What the chain makes of the lines. Behind the last valid one it keeps them all. -/
def relayLines : List (List UInt8 × HeaderText) → List (List UInt8 × HeaderText)
  | [] => []
  | (_, l) :: lines =>
      if l.Valid then
        ([], l.narrowed) :: (if ∀ e ∈ lines, ¬ e.2.Valid then lines else relayLines lines)
      else relayLines lines

theorem lineElements_eq_nil (p : Nat) (lines : List (List UInt8 × HeaderText)) :
    lineElements p lines = [] ↔ ∀ e ∈ lines, ¬ e.2.Valid := by
  induction lines generalizing p with
  | nil => simp [lineElements]
  | cons e lines ih =>
      obtain ⟨skip, l⟩ := e
      rw [lineElements, List.append_eq_nil_iff, ih, List.forall_mem_cons]
      refine and_congr ?_ Iff.rfl
      by_cases hValid : l.Valid <;> simp [hValid]

theorem Relays.exists_valid {tail : Nat} {lines : List (List UInt8 × HeaderText)} (h : Relays tail lines) :
    ¬ ∀ e ∈ lines, ¬ e.2.Valid := by
  induction h with
  | last hValid => exact fun hNone => hNone _ List.mem_cons_self hValid
  | valid hValid => exact fun hNone => hNone _ List.mem_cons_self hValid
  | invalid _ _ ih => exact fun hNone => ih fun e he => hNone e (List.mem_cons_of_mem _ he)

/-- The two slices of a line in the buffer. The first one takes two bytes behind the
name, and the second one all from the value to the end of the line. -/
theorem HeaderText.narrowed_slices {mem : Mem} {p : Nat} {l : HeaderText} (hLine : l.Relayable)
    (hMem : slice mem p (p + l.bytes.length) = l.bytes) :
    slice mem p (p + (l.name.length + 2)) ++ slice mem (p + l.valueOffset) (p + l.bytes.length) =
      l.narrowed.bytes := by
  obtain ⟨f, hField, hGap⟩ := hLine.spaced
  have hValue := hMem.trans (l.bytes_eq.trans (List.append_assoc _ _ _).symm)
  have hTail := (slice_eq_append hValue).2
  rw [List.length_append, ← l.valueOffset_eq] at hTail
  have hNarrow : l.narrowed.field = some { f with before := min f.before 1 } := by
    rw [narrowed, hField]
    rfl
  have hCrs : l.narrowed.crs = l.crs + (1 - f.before) := by
    simp only [narrowed, hField]
  have hSame : l.narrowed.value = l.value := by
    simp only [value, hNarrow, hField]
  have hName : l.narrowed.name = l.name := rfl
  rw [hTail, bytes_eq l.narrowed, hSame, hName]
  by_cases hZero : f.before = 0
  · -- the second byte behind the name is the first one of the line's end
    obtain ⟨hNil, hCr⟩ := hGap.resolve_left (by omega)
    obtain ⟨k, hk⟩ := Nat.exists_eq_add_of_le' hCr
    have hKey : slice mem p (p + l.bytes.length) =
        (l.name ++ [colon, cr]) ++ (List.replicate k cr ++ [lf]) := by
      rw [hMem, bytes_eq]
      simp [gapBytes, value, endBytes, hField, hZero, hNil, f.after_eq hNil, hk, List.replicate_succ]
    have hFront := (slice_eq_append hKey).1
    rw [List.length_append] at hFront
    rw [show l.name.length + 2 = l.name.length + [colon, cr].length from rfl, hFront]
    simp [gapBytes, value, endBytes, hField, hNarrow, hCrs, hZero, hNil, f.after_eq hNil, List.replicate_succ]
  · obtain ⟨k, hk⟩ := Nat.exists_eq_add_of_le' (Nat.pos_of_ne_zero hZero)
    have hKey : slice mem p (p + l.bytes.length) =
        (l.name ++ [colon, sp]) ++ (List.replicate k sp ++ (l.value ++ l.endBytes)) := by
      rw [hMem, bytes_eq]
      simp [gapBytes, hField, hk, List.replicate_succ]
    have hFront := (slice_eq_append hKey).1
    rw [List.length_append] at hFront
    rw [show l.name.length + 2 = l.name.length + [colon, sp].length from rfl, hFront]
    simp [gapBytes, endBytes, hField, hNarrow, hCrs, hk]

theorem iovBytes_cons (mem : Mem) (v : Iovec) (bufs : List Iovec) :
    iovBytes mem (v :: bufs) = slice mem v.base (v.base + v.len) ++ iovBytes mem bufs := rfl

/-- The slices of a line: the name with two more bytes, and the value with `n` more. -/
theorem HeaderText.widen_element {l : HeaderText} (p : Nat) (hLine : l.Relayable)
    (hBound : l.bytes.length < 2 ^ 31) :
    (l.element p).1.widen 2 = ⟨p, l.name.length + 2⟩ ∧
      (l.element p).2.widen 2 = ⟨p + l.valueOffset, l.value.length + 2⟩ := by
  obtain ⟨f, hField, -⟩ := hLine.spaced
  have hValue := l.value_end_le
  have hOffset : l.valueOffset = l.name.length + 1 + f.before := by simp only [valueOffset, hField]
  have hName : 0 < l.name.length := Nat.succ_pos _
  rw [element, hLine.whole]
  exact ⟨widen_of_bounds _ (by omega) (by omega), widen_of_bounds _ (by omega) (by omega)⟩

theorem elementIovecs_cons {f : LtString × LtString} {fields : List (LtString × LtString)} (h : fields ≠ []) :
    elementIovecs (f :: fields) = f.1.widen 2 :: f.2.widen 2 :: elementIovecs fields := by
  cases fields with
  | nil => exact absurd rfl h
  | cons g fields => rfl

/-- The slices of a block hold its relayed lines, and the last slice the tail behind
them. -/
theorem Relays.elementBytes {mem : Mem} {p q : Nat} {lines : List (List UInt8 × HeaderText)}
    {tail : List UInt8} (h : Relays tail.length lines)
    (hMem : slice mem p q = HeaderBlock.linesBytes lines ++ tail)
    (hBound : (HeaderBlock.linesBytes lines).length < 2 ^ 31) :
    iovBytes mem (elementIovecs (lineElements p lines)) = HeaderBlock.linesBytes (relayLines lines) ++ tail := by
  induction h generalizing p with
  | @last skip l back hValid hLine hBack hEnd =>
      rw [HeaderBlock.linesBytes_cons] at hMem hBound
      simp only [List.length_append] at hBound
      simp only [List.append_assoc] at hMem
      obtain ⟨hText, hRest⟩ := slice_eq_append (slice_eq_append hMem).2
      obtain ⟨hKey, hValue⟩ := HeaderText.widen_element (p + skip.length) hLine (by omega)
      have hLength := congrArg List.length l.bytes_eq
      have hOffset := l.valueOffset_eq
      simp only [List.length_append] at hLength
      have hBehind := (slice_eq_append (hRest.trans (List.append_nil _).symm)).1
      rw [List.length_append] at hBehind
      have hLast : p + skip.length + l.valueOffset + ((l.value.length + 2 + 2) % 2 ^ 64) =
          p + skip.length + l.bytes.length + ((HeaderBlock.linesBytes back).length + tail.length) := by
        omega
      rw [lineElements, if_pos hValid, (lineElements_eq_nil _ _).mpr hBack, List.append_nil, elementIovecs,
        iovBytes_cons, iovBytes_cons, hKey, hValue, relayLines, if_pos hValid, if_pos hBack,
        HeaderBlock.linesBytes_cons]
      simp only [Iovec.grow, hLast]
      rw [← slice_append (by omega : p + skip.length + l.valueOffset ≤ p + skip.length + l.bytes.length)
        (Nat.le_add_right _ _), hBehind, ← HeaderText.narrowed_slices hLine hText]
      simp [iovBytes]
  | @valid skip l lines hValid hLine hEnd hRest ih =>
      rw [HeaderBlock.linesBytes_cons] at hMem hBound
      simp only [List.length_append] at hBound
      simp only [List.append_assoc] at hMem
      obtain ⟨hText, hBehind⟩ := slice_eq_append (slice_eq_append hMem).2
      obtain ⟨hKey, hValue⟩ := HeaderText.widen_element (p + skip.length) hLine (by omega)
      have hLength := congrArg List.length l.bytes_eq
      have hOffset := l.valueOffset_eq
      simp only [List.length_append] at hLength
      have hNext : p + skip.length + l.valueOffset + (l.value.length + 2) =
          p + skip.length + l.bytes.length := by
        omega
      rw [lineElements, if_pos hValid, List.singleton_append,
        elementIovecs_cons (mt (lineElements_eq_nil _ _).mp hRest.exists_valid), iovBytes_cons, iovBytes_cons,
        hKey, hValue, ih hBehind (by omega), relayLines, if_pos hValid, if_neg hRest.exists_valid,
        HeaderBlock.linesBytes_cons, ← HeaderText.narrowed_slices hLine hText]
      simp only [hNext, List.nil_append, List.append_assoc]
  | @invalid skip l lines hValid hRest ih =>
      rw [HeaderBlock.linesBytes_cons] at hMem hBound
      simp only [List.length_append] at hBound
      simp only [List.append_assoc] at hMem
      rw [lineElements, if_neg hValid, List.nil_append, relayLines, if_neg hValid]
      exact ih (slice_eq_append (slice_eq_append hMem).2).2 (by omega)

namespace HeaderText

theorem narrowed_value (l : HeaderText) : l.narrowed.value = l.value := by
  simp only [value, narrowed]
  cases l.field <;> rfl

/-- Lower-casing leaves every byte that the builders count. -/
theorem lowered_relayable {l : HeaderText} (h : l.Relayable) : l.lowered.Relayable := by
  refine ⟨?_, by rw [lowered_keptLength, lowered_value_length, h.whole]⟩
  obtain ⟨f, hField, hGap⟩ := h.spaced
  by_cases hLowers : l.LowersValue
  · refine ⟨f.lower, ?_, hGap.imp_right (And.imp_left fun hNil => List.map_eq_nil_iff.mpr hNil)⟩
    rw [lowered, if_pos hLowers, hField]
    rfl
  · refine ⟨f, ?_, hGap⟩
    rw [lowered, if_neg hLowers, hField]

/-- What a line becomes in the list depends on its name and its value. -/
theorem lowered_congr {l l' : HeaderText} (hName : l'.name = l.name) (hValue : l'.value = l.value) :
    l'.lowered.name = l.lowered.name ∧ l'.lowered.value = l.lowered.value ∧
      l'.lowered.keptLength = l.lowered.keptLength := by
  have hNames : l'.NamesHost ↔ l.NamesHost := by rw [NamesHost, NamesHost, hName]
  have hLowers : l'.LowersValue ↔ l.LowersValue := by rw [LowersValue, LowersValue, hNames, hValue]
  refine ⟨by rw [lowered_name, lowered_name, hName], by simp only [lowered_value, hLowers, hValue], ?_⟩
  rw [lowered_keptLength, lowered_keptLength]
  simp only [keptLength, hNames, hValue]

theorem lowered_lowered (l : HeaderText) :
    l.lowered.lowered.name = l.lowered.name ∧ l.lowered.lowered.value = l.lowered.value := by
  have hIdem : ∀ w : List UInt8, (w.map tolower).map tolower = w.map tolower := by
    intro w
    simp only [List.map_map, Function.comp_def, tolower_tolower]
  have hLowers : l.lowered.LowersValue ↔ l.LowersValue := by
    rw [LowersValue, LowersValue, lowered_namesHost, lowered_hostLength]
  refine ⟨by rw [lowered_name l.lowered, lowered_name, hIdem], ?_⟩
  simp only [lowered_value l.lowered, hLowers, lowered_value l]
  split_ifs
  · exact hIdem _
  · rfl

end HeaderText

theorem Relays.lowered {tail : Nat} {lines : List (List UInt8 × HeaderText)} (h : Relays tail lines) :
    Relays tail (lines.map lowerText) := by
  induction h with
  | @last skip l back hValid hLine hBack hEnd =>
      rw [List.map_cons, lowerText, if_pos hValid]
      refine .last (l.lowered_valid.mpr hValid) (HeaderText.lowered_relayable hLine) ?_ ?_
      · simp only [List.mem_map, forall_exists_index, and_imp, forall_apply_eq_imp_iff₂, lowerText_valid]
        exact hBack
      · rw [l.lowered_endBytes, lowered_lines_length]
        exact hEnd
  | @valid skip l lines hValid hLine hEnd hRest ih =>
      rw [List.map_cons, lowerText, if_pos hValid]
      exact .valid (l.lowered_valid.mpr hValid) (HeaderText.lowered_relayable hLine)
        (by rw [l.lowered_endBytes, hEnd]) ih
  | @invalid skip l lines hValid hRest ih =>
      rw [List.map_cons, lowerText, if_neg hValid]
      exact .invalid hValid ih

def HeaderText.fields (l : HeaderText) : List (List UInt8 × List UInt8) :=
  if l.Valid then [(l.lowered.name, l.lowered.value.take l.lowered.keptLength)] else []

theorem lineFields_lowered (lines : List (List UInt8 × HeaderText)) :
    lineFields (lines.map lowerText) = lines.flatMap fun e => e.2.fields := by
  rw [lineFields, List.flatMap_map]
  congr 1
  funext e
  rw [HeaderText.fields, lowerText]
  by_cases hValid : e.2.Valid
  · rw [if_pos hValid, if_pos (e.2.lowered_valid.mpr hValid), if_pos hValid]
  · rw [if_neg hValid, if_neg hValid, if_neg hValid]

theorem HeaderText.fields_congr {l l' : HeaderText} (hName : l'.name = l.name) (hValue : l'.value = l.value) :
    l'.fields = l.fields := by
  obtain ⟨hLowName, hLowValue, hKept⟩ := lowered_congr hName hValue
  have hValid : l'.Valid ↔ l.Valid := by simp only [Valid, hName]
  simp only [fields, hValid, hLowName, hLowValue, hKept]

theorem HeaderText.fields_lowered {l : HeaderText} (hValid : l.Valid) : l.lowered.fields = l.fields := by
  obtain ⟨hName, hValue⟩ := l.lowered_lowered
  rw [fields, fields, if_pos hValid, if_pos (l.lowered_valid.mpr hValid), hName, hValue,
    l.lowered.lowered_keptLength]

/-- The relayed lines list the same fields, as they differ in what stands around the
values only. -/
theorem lineFields_relayLines (lines : List (List UInt8 × HeaderText)) :
    lineFields ((relayLines (lines.map lowerText)).map lowerText) = lineFields (lines.map lowerText) := by
  have hRelay : ∀ lines : List (List UInt8 × HeaderText),
      (relayLines lines).flatMap (fun e => e.2.fields) = lines.flatMap fun e => e.2.fields := by
    intro lines
    induction lines with
    | nil => rfl
    | cons e lines ih =>
        obtain ⟨skip, l⟩ := e
        rw [relayLines, List.flatMap_cons]
        by_cases hValid : l.Valid
        · have hHere : l.narrowed.fields = l.fields := HeaderText.fields_congr rfl l.narrowed_value
          rw [if_pos hValid, List.flatMap_cons, hHere]
          split_ifs
          · rfl
          · rw [ih]
        · rw [if_neg hValid, ih, HeaderText.fields, if_neg hValid, List.nil_append]
  rw [lineFields_lowered, hRelay, lineFields_lowered, List.flatMap_map]
  congr 1
  funext e
  rw [lowerText]
  split_ifs with hValid
  · exact HeaderText.fields_lowered hValid
  · rfl

/-- A relayed line is at most one byte longer. -/
theorem HeaderText.narrowed_length (l : HeaderText) : l.narrowed.bytes.length ≤ l.bytes.length + 1 := by
  have hName : l.narrowed.name = l.name := rfl
  rw [bytes_eq, bytes_eq, hName, narrowed_value]
  simp only [gapBytes, endBytes, narrowed]
  cases l.field with
  | none => simp
  | some f =>
      simp only [Option.map_some, List.length_append, List.length_cons, List.length_replicate]
      omega

theorem relayLines_length (lines : List (List UInt8 × HeaderText)) :
    (HeaderBlock.linesBytes (relayLines lines)).length ≤ 2 * (HeaderBlock.linesBytes lines).length := by
  induction lines with
  | nil => rfl
  | cons e lines ih =>
      obtain ⟨skip, l⟩ := e
      have hHere := l.narrowed_length
      have hPos := l.length_bytes_pos
      rw [relayLines, HeaderBlock.linesBytes_cons]
      split_ifs <;> simp only [HeaderBlock.linesBytes_cons, List.length_append, List.length_nil] <;> omega

namespace HeaderBlock

/-- The builders' expectation of a block. -/
def Relayable (blk : HeaderBlock) : Prop := Relays (blk.skip ++ lineBreak blk.blank).length blk.lines

def relayed (blk : HeaderBlock) : HeaderBlock := { blk with lines := relayLines blk.lowered.lines }

theorem relayed_length (blk : HeaderBlock) : blk.relayed.bytes.length ≤ 2 * blk.bytes.length := by
  have hLines := relayLines_length blk.lowered.lines
  have hLow := lowered_lines_length blk.lines
  simp only [bytes, relayed, lowered, List.length_append] at hLines ⊢
  omega

theorem relayed_readable {blk : HeaderBlock} (h : blk.Readable 0) : blk.relayed.Readable 0 := by
  have hLines : ∀ e ∈ blk.lowered.lines, Skipped 0 e.1 := by
    intro e he
    obtain ⟨e', he', rfl⟩ := List.mem_map.mp he
    exact (h.1 e' he').1
  refine ⟨fun e he => ⟨?_, fun hUpstream => absurd rfl hUpstream⟩, h.2⟩
  have hRelay : ∀ lines : List (List UInt8 × HeaderText), (∀ e ∈ lines, Skipped 0 e.1) →
      ∀ e ∈ relayLines lines, Skipped 0 e.1 := by
    intro lines
    induction lines with
    | nil => exact fun _ e he => nomatch he
    | cons e lines ih =>
        intro hAll
        rw [List.forall_mem_cons] at hAll
        rw [relayLines]
        split_ifs
        · exact List.forall_mem_cons.mpr ⟨.nil, hAll.2⟩
        · exact List.forall_mem_cons.mpr ⟨.nil, ih hAll.2⟩
        · exact ih hAll.2
  exact hRelay _ hLines e he

end HeaderBlock

/-- The slices of the elements of a relayable block hold the relayed block. -/
theorem HeadersRead.elementBytes {h h' : Head} {p q : Nat} {blk : HeaderBlock} {rest : List UInt8}
    (hRead : HeadersRead h h' p blk) (hMem : slice h.mem p q = blk.bytes ++ rest) (hRelay : blk.Relayable)
    (hBound : blk.bytes.length < 2 ^ 31) :
    iovBytes h'.mem (elementIovecs (lineElements p blk.lines)) = blk.relayed.bytes := by
  have hLength := lowered_lines_length blk.lines
  rw [HeaderBlock.bytes, List.append_assoc] at hMem
  obtain ⟨hLines, hTail⟩ := slice_eq_append hMem
  have hBehind := (slice_eq_append hTail).1
  have hLow := lowerLines_slice blk.lines hLines
  rw [HeaderBlock.bytes, List.length_append] at hBound
  rw [← lineElements_lowered, HeaderBlock.bytes]
  refine Relays.elementBytes hRelay.lowered ?_ (by omega)
    (q := p + (HeaderBlock.linesBytes blk.lines).length + (blk.skip ++ lineBreak blk.blank).length)
  rw [hRead.mem]
  refine slice_eq_append_of (by omega) (by rw [hLength]; exact hLow) ?_
  rw [hLength, slice_congr fun x hx _ => lowerLines_frame blk.lines (Or.inr hx)]
  exact hBehind

/-- The bytes in front of the block stay as they are. -/
theorem HeadersRead.front {h h' : Head} {p a b : Nat} {blk : HeaderBlock} (hRead : HeadersRead h h' p blk)
    (hLe : b ≤ p) : slice h'.mem a b = slice h.mem a b := by
  rw [hRead.mem]
  exact slice_congr fun x _ hx => lowerLines_frame blk.lines (Or.inl (by omega))

theorem plainBlock_relayable : (plainBlock true).Relayable := by
  refine .last (by decide) ⟨⟨_, rfl, Or.inl (by decide)⟩, by decide⟩ (fun e he => nomatch he) (by decide)

end Leactor
