import Leactor.Http.Head
import Leactor.Parse.HeaderSpec

/-! What `ngx_http_parse_header_line` has stored of a line that it accepts: its
slices, and the hash and the ring of lower-case bytes of a valid name. -/
namespace Leactor

open Ascii Scan Memory

/-- The ring `lowcase_header` behind the name `w`: the next index, and in each slot the
last byte of the name whose position is congruent to it. -/
structure LowcaseRing (w : List UInt8) (index : Int) (before after : Int → UInt8) : Prop where
  index_eq : index = (w.length % 32 : Nat)
  slot : ∀ k c, w[k]? = some c → (∀ k', k < k' → k' < w.length → k' % 32 ≠ k % 32) →
    after ((k % 32 : Nat) : Int) = tolower c
  other : ∀ j : Int, (∀ k, k < w.length → ((k % 32 : Nat) : Int) ≠ j) → after j = before j

structure StoresLine (mem : Mem) (l : HeaderText) (r : RequestT) (b : LtBuffer) (r' : RequestT) (b' : LtBuffer) :
    Prop where
  consumed : b' = { b with pos := b.pos + l.bytes.length } ∧ slice mem b.pos b'.pos = l.bytes
  name : r'.headerNameStart = b.pos ∧ slice mem r'.headerNameStart r'.headerNameEnd = l.name
  value : slice mem r'.headerStart r'.headerEnd = l.value
  valid : r'.invalidHeader = 0 → (∀ c ∈ l.name, IsDigit c ∨ IsLetter c ∨ c = minus ∨ c = underscore) ∧
    r'.headerHash = bkdrHash (l.name.map tolower) ∧
    LowcaseRing l.name r'.lowcaseIndex r.lowcaseHeader r'.lowcaseHeader

theorem LowcaseRing.nil {before : Int → UInt8} : LowcaseRing [] 0 before before where
  index_eq := rfl
  slot k c hc := by simp at hc
  other _ _ := rfl

/-- A byte is stored at the index, and the index goes on. From the 33rd byte on the ring
is written over, and holds the last 32. -/
theorem LowcaseRing.push {w : List UInt8} {index : Int} {before after : Int → UInt8} (c : UInt8)
    (h : LowcaseRing w index before after) :
    LowcaseRing (w ++ [c]) ((index + 1) % 32) before fun j => if j = index then tolower c else after j where
  index_eq := by
    have hIndex := h.index_eq
    rw [List.length_append, List.length_singleton]
    omega
  slot k d hd hLast := by
    have hIndex := h.index_eq
    simp only [List.length_append, List.length_singleton] at hLast
    rcases Nat.lt_trichotomy k w.length with hk | rfl | hk
    · rw [List.getElem?_append_left hk] at hd
      have hEarlier := hLast w.length hk (Nat.lt_succ_self _)
      rw [if_neg (by omega)]
      exact h.slot k d hd fun k' hAfter hBefore => hLast k' hAfter (Nat.lt_succ_of_lt hBefore)
    · rw [List.getElem?_append_right (Nat.le_refl _), Nat.sub_self] at hd
      obtain rfl : c = d := by simpa using hd
      rw [if_pos hIndex.symm]
    · rw [List.getElem?_eq_none (by simp; omega)] at hd
      exact nomatch hd
  other j hj := by
    have hIndex := h.index_eq
    simp only [List.length_append, List.length_singleton] at hj
    have hHere := hj w.length (Nat.lt_succ_self _)
    rw [if_neg fun hSame => hHere (by omega)]
    exact h.other j fun k hk => hj k (Nat.lt_succ_of_lt hk)

theorem nameStep_ring {σ : HeaderLineScan} {c : UInt8} (h : IsNameByte c) :
    (nameStep σ c).i = (σ.i + 1) % 32 ∧
      (nameStep σ c).req.lowcaseHeader = fun j => if j = σ.i then tolower c else σ.req.lowcaseHeader j := by
  unfold nameStep
  split_ifs with hTable hUnderscore
  · rw [← lowcase_eq_tolower c hTable]
    exact ⟨rfl, rfl⟩
  · subst hUnderscore
    rw [tolower_underscore]
    exact ⟨rfl, rfl⟩
  · exact absurd h (not_or.mpr ⟨hTable, hUnderscore⟩)

/-- The ring behind a valid name. -/
theorem foldl_nameStep_ring {w : List UInt8} {σ : HeaderLineScan} (hIndex : σ.i = 0) (h : ∀ c ∈ w, IsNameByte c) :
    LowcaseRing w (w.foldl nameStep σ).i σ.req.lowcaseHeader (w.foldl nameStep σ).req.lowcaseHeader := by
  induction w using List.reverseRecOn with
  | nil =>
      rw [List.foldl_nil, hIndex]
      exact .nil
  | append_singleton w c ih =>
      rw [List.forall_mem_append, List.forall_mem_singleton] at h
      rw [List.foldl_append, List.foldl_cons, List.foldl_nil]
      obtain ⟨hNext, hSlots⟩ := nameStep_ring (σ := w.foldl nameStep σ) h.2
      rw [hNext, hSlots]
      exact (ih h.1).push c

theorem IsNameByte.class_iff : ∀ {c : UInt8},
    IsNameByte c ↔ IsDigit c ∨ IsLetter c ∨ c = minus ∨ c = underscore := by
  intro c
  rw [IsNameByte, lowcase_ne_zero_iff, or_assoc, or_assoc]

/-- A lower-case name byte has no sign, so that both hashes add the same. -/
theorem tolower_signed : ∀ c : UInt8, IsNameByte c →
    (tolower c).toInt8.toInt32.toUInt32 = (tolower c).toUInt32 := by
  apply forall_byte
  decide +kernel

theorem bkdrHash_lower {w : List UInt8} (h : ∀ c ∈ w, IsNameByte c) :
    bkdrHash (w.map tolower) = nameHash w := by
  have hFold : ∀ key, (w.map tolower).foldl (fun hash ch => hash * 31 + ch.toInt8.toInt32.toUInt32) key =
      w.foldl (fun key c => ngxHash key (tolower c)) key := by
    induction w with
    | nil => exact fun _ => rfl
    | cons c w ih =>
        intro key
        rw [List.forall_mem_cons] at h
        rw [List.map_cons, List.foldl_cons, List.foldl_cons, tolower_signed c h.1]
        exact ih h.2 _
  exact hFold 0

/-- The ring behind a header line without a reply in front of it. -/
theorem ngxHttpParseHeaderLine_ring {mem : Mem} {r r' : RequestT} {b b' : LtBuffer} {l : HeaderText}
    {rest : List UInt8} (hState : r.state = 0) (hUpstream : r.upstream = 0)
    (hUnread : b.unread mem = l.bytes ++ rest) (hValid : l.Valid)
    (h : ngxHttpParseHeaderLine mem r b true = (.lok, r', b')) :
    LowcaseRing l.name r'.lowcaseIndex r.lowcaseHeader r'.lowcaseHeader := by
  have hBytes := (slice_eq_append hUnread).1
  have hName : slice mem b.pos (b.pos + l.name.length) = l.name := by
    rw [HeaderText.bytes, List.append_assoc, List.append_assoc] at hBytes
    exact (slice_eq_append hBytes).1
  obtain ⟨s, hRun⟩ := run_headerText mem (p := b.pos) (σ := ⟨.start, r, r.headerHash, r.lowcaseIndex⟩) l rfl hName
    fun hSome => absurd hUpstream hSome
  have hParse := ngxHttpParseHeaderLine_of_done hState (by rw [hUnread]; exact run_append_of_halted rest hRun)
  rw [h] at hParse
  obtain rfl : r' = _ := congrArg (fun x => x.2.1) hParse
  have hFirst : IsNameByte l.first := hValid _ List.mem_cons_self
  exact foldl_nameStep_ring (σ := openName b.pos l.first ⟨.start, r, r.headerHash, r.lowcaseIndex⟩) (if_pos hFirst)
    hValid

/-- Every header line that is accepted is a name and possibly a value, and its slices,
the hash and the ring are theirs. The line is found in the bytes, not taken from the
parser's own fields. -/
theorem ngxHttpParseHeaderLine_stores {mem : Mem} {r r' : RequestT} {b b' : LtBuffer} (hState : r.state = 0)
    (hUpstream : r.upstream = 0) (h : ngxHttpParseHeaderLine mem r b true = (.lok, r', b')) :
    ∃ l, StoresLine mem l r b r' b' := by
  rcases ngxHttpParseHeaderLine_cases mem hState with
    ⟨l, skip, rest, hUnread, hSkip, hReply⟩ | ⟨blank, skip, rest, hUnread, hSkip⟩ | hStall
  · obtain ⟨r₁, hLine, hReads⟩ := ngxHttpParseHeaderLine_line l hState hUnread hSkip hReply
    obtain rfl := hSkip.eq_nil hUpstream
    rw [List.nil_append] at hUnread
    rw [List.length_nil, Nat.add_zero] at hLine hReads
    have hSame := hLine
    rw [h] at hSame
    cases hSame
    have hBytes := (slice_eq_append hUnread).1
    have hSlices := HeaderText.slice_name hUnread
    refine ⟨l, ⟨rfl, hBytes⟩, ⟨hReads.nameStart, ?_⟩, ?_, fun hZero => ?_⟩
    · rw [hReads.nameStart, hReads.nameEnd]
      exact hSlices.1
    · rw [hReads.valueStart, hReads.valueEnd]
      exact hSlices.2
    · have hValid := hReads.invalid.mp hZero
      refine ⟨fun c hc => IsNameByte.class_iff.mp (hValid c hc), ?_,
        ngxHttpParseHeaderLine_ring hState hUpstream hUnread hValid h⟩
      rw [bkdrHash_lower hValid]
      exact hReads.hash hValid
  · obtain ⟨q, hBlank, -, -⟩ := ngxHttpParseHeaderLine_blank blank hState hUnread hSkip
    exact nomatch (congrArg Prod.fst h).symm.trans (congrArg Prod.fst hBlank)
  · rw [h] at hStall
    cases hStall

def fieldHead : Head := .received (ofChars ['A', ':', ' ', 'c'] ++ [cr, lf])

theorem ngxHttpParseHeaderLine_stores_fieldHead :
    ∃ l, StoresLine fieldHead.mem l fieldHead.req fieldHead.buf
      (ngxHttpParseHeaderLine fieldHead.mem fieldHead.req fieldHead.buf true).2.1
      (ngxHttpParseHeaderLine fieldHead.mem fieldHead.req fieldHead.buf true).2.2 :=
  ngxHttpParseHeaderLine_stores rfl rfl (Prod.ext (by decide +kernel) rfl)

end Leactor
