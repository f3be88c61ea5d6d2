import Leactor.Net.SendChains

/-! `send_buffers` of buffer_op_lea.c: one `writev` over a list of buffers, and
the spreading of its count over them. -/
namespace Leactor

open Memory

/-- The buffer whose struct is at address `p`. Its array `start` comes first. -/
def structAt (bufs : List LtBuffer) (p : Nat) : Option Nat :=
  bufs.findIdx? fun b => b.start = p

def advancePos (bufs : List LtBuffer) (i : Nat) (n : Int) : List LtBuffer :=
  bufs.modify i fun b => { b with pos := toSize ((b.pos : Int) + n) }

/-- The loop behind `writev`, over the rest of `out_vector`, with `remain` bytes
left. `cur_buf` is taken from `iov_base`, which is a pointer to data; `none` is a
write through one that is no buffer or not set, or the end of the function. -/
def spread : List Iovec → Int → Option Nat → List LtBuffer → Option (Res × List LtBuffer)
  | [], _, _, _ => none
  | v :: vec, remain, curBuf, bufs =>
      let iovLen := wrap32 v.len
      if iovLen < remain then
        match structAt bufs v.base with
        | none => none
        | some i => spread vec (remain - iovLen) (some i) (advancePos bufs i iovLen)
      else if remain < iovLen then
        match curBuf with
        | none => none
        | some i => some (.lagain, advancePos bufs i remain)
      else some (.lok, bufs)

def LtBuffer.iovec (b : LtBuffer) : Iovec := ⟨b.pos, toSize ((b.last : Int) - b.pos)⟩

/-- `send_buffers` on the buffers of a list; the empty list is NULL. -/
def sendBuffers (bufs : List LtBuffer) (out : WritevOutcome) : Option (Res × List LtBuffer) :=
  match bufs with
  | [] => some (.lok, bufs)
  | b :: _ =>
      if b.pos = b.last then some (.lok, bufs)
      else
        match out with
        | .eagain => some (.lagain, bufs)
        | .epipe => some (.lclose, bufs)
        | .error => some (.lerror, bufs)
        | .wrote n =>
            if n = 0 then some (.lclose, bufs) else spread (bufs.map LtBuffer.iovec) (wrap32 n) none bufs

def LtBuffer.size (b : LtBuffer) : Nat := b.last - b.pos

def totalSize (bufs : List LtBuffer) : Nat := (bufs.map LtBuffer.size).sum

/-- The buffers with `n` bytes taken from the front of the list. -/
def takeBytes : Nat → List LtBuffer → List LtBuffer
  | _, [] => []
  | n, b :: bufs => { b with pos := b.pos + min n b.size } :: takeBytes (n - b.size) bufs

/-- How many bytes the call writes. It writes nothing when the first buffer is empty. -/
def bytesWritten (bufs : List LtBuffer) (out : WritevOutcome) : Nat :=
  if ∃ b ∈ bufs.head?, b.pos = b.last then 0 else out.count

/-- Buffers as they lie in memory: each in its array, and no two at one place. -/
structure WellPlaced (bufs : List LtBuffer) : Prop where
  bounds : ∀ b ∈ bufs, b.start ≤ b.pos ∧ b.pos ≤ b.last ∧ b.last ≤ b.start + 16384
  fits : ∀ b ∈ bufs, b.start + 16384 < 2 ^ 64
  apart : bufs.Pairwise fun b c => b.start + 16384 < c.start ∨ c.start + 16384 < b.start

def AccountsForEveryByte (bufs : List LtBuffer) (out : WritevOutcome) : Prop :=
  ∃ res bufs', sendBuffers bufs out = some (res, bufs') ∧
    (res = .lok → bytesWritten bufs out = totalSize bufs) ∧
    (res = .lagain → bufs' = takeBytes (bytesWritten bufs out) bufs)

/-- The count `n` comes to the end of a buffer in front of which every buffer
still begins at the start of its array. -/
def EndsAtBuffer : Int → List LtBuffer → Prop
  | _, [] => False
  | n, b :: bufs => n = b.size ∨ ((b.size : Int) < n ∧ b.pos = b.start ∧ EndsAtBuffer (n - b.size) bufs)

def finished (bufs : List LtBuffer) : List LtBuffer := bufs.map fun b => { b with pos := b.last }

theorem totalSize_cons (b : LtBuffer) (bufs : List LtBuffer) :
    totalSize (b :: bufs) = b.size + totalSize bufs := by
  simp [totalSize]

theorem takeBytes_append {n : Nat} {front : List LtBuffer} (back : List LtBuffer)
    (hPlaced : ∀ b ∈ front, b.pos ≤ b.last) (hn : totalSize front ≤ n) :
    takeBytes n (front ++ back) = finished front ++ takeBytes (n - totalSize front) back := by
  induction front generalizing n with
  | nil => simp [finished, totalSize]
  | cons b front ih =>
      rw [List.forall_mem_cons] at hPlaced
      rw [totalSize_cons] at hn ⊢
      have hPos : b.pos + min n b.size = b.last := by
        unfold LtBuffer.size at hn ⊢
        omega
      rw [List.cons_append, takeBytes, hPos, ih hPlaced.2 (by omega), Nat.sub_sub]
      rfl

section Spread

variable {front back : List LtBuffer} {b : LtBuffer}

theorem structAt_finished (h : WellPlaced (front ++ b :: back)) :
    structAt (finished front ++ b :: back) b.pos =
      if b.pos = b.start then some front.length else none := by
  have hBounds := h.bounds
  obtain ⟨-, hApart, hCross⟩ := List.pairwise_append.mp h.apart
  have hBack := (List.pairwise_cons.mp hApart).1
  have hb := hBounds b (by simp)
  have hFront : ∀ c ∈ finished front, ¬ c.start = b.pos := by
    intro c hc
    obtain ⟨d, hd, rfl⟩ := List.mem_map.mp hc
    have hSep := hCross d hd b List.mem_cons_self
    simp only
    omega
  have hNone : (finished front).findIdx? (fun c => decide (c.start = b.pos)) = none := by
    rw [List.findIdx?_eq_none_iff]
    intro c hc
    simpa using hFront c hc
  rw [structAt, List.findIdx?_append, hNone, List.findIdx?_cons]
  by_cases hSame : b.pos = b.start
  · simp [hSame, finished]
  · have hTail : back.findIdx? (fun c => decide (c.start = b.pos)) = none := by
      rw [List.findIdx?_eq_none_iff]
      intro c hc
      have hSep := hBack c hc
      have hOther : c.start ≠ b.pos := by omega
      simpa using hOther
    simp [hSame, hTail, Ne.symm hSame]

theorem advancePos_append (bufs : List LtBuffer) (n : Int) :
    advancePos (bufs ++ b :: back) bufs.length n =
      bufs ++ { b with pos := toSize ((b.pos : Int) + n) } :: back := by
  induction bufs with
  | nil => rfl
  | cons c bufs ih =>
      rw [advancePos] at ih
      rw [advancePos, List.cons_append, List.length_cons, List.modify_succ_cons, ih]
      rfl

theorem LtBuffer.iovec_len (hPlaced : b.pos ≤ b.last) (hFits : b.last < 2 ^ 64) : b.iovec.len = b.size := by
  rw [iovec, size, ← Int.ofNat_sub hPlaced]
  exact toSize_of_nat (by omega)

/-- How the loop ends over the buffers `back`, with those in `front` behind it. -/
inductive SpreadEnds (front : List LtBuffer) (n : Int) (back : List LtBuffer) :
    Option (Res × List LtBuffer) → Prop where
  | lok (bufs : List LtBuffer) (hEnd : EndsAtBuffer n back) : SpreadEnds front n back (some (.lok, bufs))
  | wild (hEnd : ¬ EndsAtBuffer n back) : SpreadEnds front n back none
  | lagain {front' back' : List LtBuffer} {b : LtBuffer} {x : Nat} (hEnd : ¬ EndsAtBuffer n back)
      (hSplit : front ++ back = front' ++ b :: back')
      (hCount : (totalSize (front' ++ [b]) : Int) ≤ totalSize front + n) (hx : x ≠ b.last) :
      SpreadEnds front n back (some (.lagain, finished front' ++ { b with pos := x } :: back'))

theorem spread_ends (front : List LtBuffer) {n : Int} (hPlaced : WellPlaced (front ++ back)) (hn : 0 < n) :
    SpreadEnds front n back (spread (back.map LtBuffer.iovec) n
      (if front = [] then none else some (front.length - 1)) (finished front ++ back)) := by
  induction back generalizing front n with
  | nil => exact .wild id
  | cons b back ih =>
      have hb := hPlaced.bounds b (by simp)
      have hFits := hPlaced.fits b (by simp)
      have hLen : wrap32 b.iovec.len = b.size := by
        rw [LtBuffer.iovec_len hb.2.1 (by omega)]
        unfold LtBuffer.size
        exact wrap32_of_bounds (by omega) (by omega)
      rw [List.map_cons]
      unfold spread
      simp only [hLen]
      by_cases hLt : (b.size : Int) < n
      · rw [if_pos hLt, LtBuffer.iovec, structAt_finished hPlaced]
        by_cases hStart : b.pos = b.start
        · have hPos : toSize ((b.pos : Int) + b.size) = b.last := by
            unfold LtBuffer.size
            rw [← Nat.cast_add, toSize_of_nat (by omega)]
            omega
          have hLength : (finished front).length = front.length := List.length_map _
          have hAdvance := @advancePos_append back b (finished front) b.size
          rw [hLength, hPos] at hAdvance
          have hFinished : finished front ++ { b with pos := b.last } :: back =
              finished (front ++ [b]) ++ back := by
            simp [finished]
          have hRest := ih (front ++ [b]) (n := n - b.size) (by simpa using hPlaced) (by omega)
          rw [if_pos hStart]
          simp only
          rw [hAdvance, hFinished]
          simp only [List.append_eq_nil_iff, List.cons_ne_self, and_false, if_false, List.length_append,
            List.length_singleton, Nat.add_sub_cancel] at hRest
          have hTotal : totalSize (front ++ [b]) = totalSize front + b.size := by
            simp [totalSize]
          have hKeep : EndsAtBuffer n (b :: back) ↔ EndsAtBuffer (n - b.size) back :=
            ⟨fun h => h.elim (fun h => absurd h (by omega)) fun h => h.2.2, fun h => Or.inr ⟨hLt, hStart, h⟩⟩
          generalize spread (back.map LtBuffer.iovec) (n - b.size) (some front.length)
            (finished (front ++ [b]) ++ back) = result at hRest ⊢
          cases hRest with
          | lok bufs hEnd => exact .lok bufs (hKeep.mpr hEnd)
          | wild hEnd => exact .wild (mt hKeep.mp hEnd)
          | lagain hEnd hSplit hCount hx =>
              exact .lagain (mt hKeep.mp hEnd) (by simpa using hSplit) (by omega) hx
        · rw [if_neg hStart]
          exact .wild fun hEnd => hEnd.elim (fun h => absurd h (by omega)) fun h => hStart h.2.1
      · rw [if_neg hLt]
        by_cases hGt : n < b.size
        · have hEnd : ¬ EndsAtBuffer n (b :: back) := fun h =>
            h.elim (fun h => absurd h (by omega)) fun h => absurd h.1 (by omega)
          rw [if_pos hGt]
          rcases List.eq_nil_or_concat front with rfl | ⟨front', c, rfl⟩
          · exact .wild hEnd
          · have hc := hPlaced.bounds c (by simp)
            have hcFits := hPlaced.fits c (by simp)
            have hAdvance := @advancePos_append (b :: back) { c with pos := c.last } (finished front') n
            have hLength : (finished front').length = front'.length := List.length_map _
            have hFinished : finished (front'.concat c) ++ b :: back =
                finished front' ++ { c with pos := c.last } :: b :: back := by
              simp [finished]
            rw [hLength] at hAdvance
            simp only [List.concat_eq_append, List.append_eq_nil_iff, List.cons_ne_self, and_false, if_false,
              List.length_append, List.length_singleton, Nat.add_sub_cancel] at hFinished ⊢
            rw [hFinished, hAdvance]
            have hSize : b.size ≤ 16384 := by
              unfold LtBuffer.size
              omega
            refine .lagain (b := c) hEnd (by simp) (by omega) ?_
            simp only [toSize]
            omega
        · rw [if_neg hGt]
          exact .lok _ (Or.inl (by omega))

end Spread

theorem takeBytes_zero (bufs : List LtBuffer) : takeBytes 0 bufs = bufs := by
  induction bufs with
  | nil => rfl
  | cons b bufs ih =>
      rw [takeBytes, Nat.zero_min, Nat.add_zero, Nat.zero_sub, ih]

/-- Where the loop returns `LAGAIN`, the last buffer touched is not what was written. -/
theorem takeBytes_ne {n : Nat} {front back : List LtBuffer} {b : LtBuffer} {x : Nat}
    (hPlaced : ∀ c ∈ front ++ [b], c.pos ≤ c.last) (hCount : totalSize (front ++ [b]) ≤ n)
    (hx : x ≠ b.last) : finished front ++ { b with pos := x } :: back ≠ takeBytes n (front ++ b :: back) := by
  intro hSame
  have hTake := takeBytes_append back hPlaced hCount
  rw [List.append_assoc, List.singleton_append] at hTake
  rw [hTake, finished, finished, List.map_append, List.append_assoc] at hSame
  have hHere := List.append_cancel_left hSame
  rw [List.map_singleton, List.singleton_append, List.cons.injEq] at hHere
  have hPos := congrArg LtBuffer.pos hHere.1
  exact hx hPos

/-- `send_buffers` accounts for every byte exactly where there is nothing to write,
where nothing is written, and where everything is written and comes to the end of a
buffer with only unread buffers in front of it. The count is taken as the int it is. -/
theorem sendBuffers_accounts_iff {bufs : List LtBuffer} (hPlaced : WellPlaced bufs) (hNe : bufs ≠ [])
    (out : WritevOutcome)
    (hOut : out = .eagain ∨ ∃ n, 1 ≤ n ∧ n ≤ totalSize bufs ∧ out = .wrote n) :
    AccountsForEveryByte bufs out ↔
      totalSize bufs = 0 ∨ (∀ b ∈ bufs.head?, b.pos ≠ b.last) ∧
        (out = .eagain ∨
          out = .wrote (totalSize bufs) ∧ EndsAtBuffer (wrap32 (totalSize bufs)) bufs) := by
  obtain ⟨b, rest, rfl⟩ := List.exists_cons_of_ne_nil hNe
  have hBounds := fun c hc => (hPlaced.bounds c hc).2.1
  have hb := hBounds b List.mem_cons_self
  by_cases hEmpty : b.pos = b.last
  · have hSend : sendBuffers (b :: rest) out = some (.lok, b :: rest) := if_pos hEmpty
    have hWritten : bytesWritten (b :: rest) out = 0 := by
      simp [bytesWritten, hEmpty]
    unfold AccountsForEveryByte
    rw [hSend, hWritten]
    simp [hEmpty, eq_comm]
  · have hWritten : bytesWritten (b :: rest) out = out.count := by
      simp [bytesWritten, hEmpty]
    have hTotal : totalSize (b :: rest) ≠ 0 := by
      rw [totalSize_cons]
      unfold LtBuffer.size
      omega
    have hHead : ∀ c ∈ (b :: rest).head?, c.pos ≠ c.last := by
      simpa using hEmpty
    unfold AccountsForEveryByte
    rw [hWritten]
    rcases hOut with rfl | ⟨n, hn, -, rfl⟩
    · have hSend : sendBuffers (b :: rest) .eagain = some (.lagain, b :: rest) := if_neg hEmpty
      refine iff_of_true ⟨.lagain, b :: rest, hSend, nofun, fun _ => ?_⟩ (Or.inr ⟨hHead, Or.inl rfl⟩)
      exact (takeBytes_zero _).symm
    · have hSend : sendBuffers (b :: rest) (.wrote n) =
          spread ((b :: rest).map LtBuffer.iovec) (wrap32 n) none (b :: rest) :=
        (if_neg hEmpty).trans (if_neg (by omega))
      have hEnds : SpreadEnds [] (wrap32 n) (b :: rest)
          (spread ((b :: rest).map LtBuffer.iovec) (wrap32 n) none (b :: rest)) := by
        by_cases hPos : 0 < wrap32 n
        · exact spread_ends [] hPlaced hPos
        · have hFits := hPlaced.fits b List.mem_cons_self
          have hLast := hPlaced.bounds b List.mem_cons_self
          have hLen : wrap32 b.iovec.len = b.size := by
            rw [LtBuffer.iovec_len hb (by omega)]
            unfold LtBuffer.size
            exact wrap32_of_bounds (by omega) (by omega)
          have hSize : 0 < b.size := by
            unfold LtBuffer.size
            omega
          rw [List.map_cons]
          unfold spread
          simp only [hLen]
          rw [if_neg (by omega), if_pos (by omega)]
          exact .wild fun h => h.elim (fun h => absurd h (by omega)) fun h => absurd h.1 (by omega)
      have hLe := wrap32_le n
      rw [hSend]
      generalize spread ((b :: rest).map LtBuffer.iovec) (wrap32 n) none (b :: rest) = result
        at hEnds
      cases hEnds with
      | lok bufs hEnd =>
          constructor
          · rintro ⟨res, bufs', hSame, hLok, -⟩
            cases hSame
            have hAll : n = totalSize (b :: rest) := hLok rfl
            rw [← hAll]
            exact Or.inr ⟨hHead, Or.inr ⟨rfl, hEnd⟩⟩
          · intro hRight
            obtain ⟨hAll, -⟩ := (hRight.resolve_left hTotal).2.resolve_left nofun
            exact ⟨.lok, bufs, rfl, fun _ => WritevOutcome.wrote.inj hAll, nofun⟩
      | wild hEnd =>
          refine iff_of_false (by rintro ⟨res, bufs', hSame, -⟩; exact nomatch hSame) ?_
          intro hRight
          obtain ⟨hAll, hEnd'⟩ := (hRight.resolve_left hTotal).2.resolve_left nofun
          rw [← WritevOutcome.wrote.inj hAll] at hEnd'
          exact hEnd hEnd'
      | @lagain front back c x hEnd hSplit hCount hx =>
          constructor
          · rintro ⟨res, bufs', hSame, -, hLagain⟩
            cases hSame
            rw [List.nil_append] at hSplit
            rw [hSplit] at hBounds
            refine absurd (hLagain rfl) ?_
            rw [hSplit]
            refine takeBytes_ne (fun d hd => hBounds d ?_) ?_ hx
            · rw [List.mem_append, List.mem_singleton] at hd
              rcases hd with hd | rfl
              · exact List.mem_append_left _ hd
              · exact List.mem_append_right _ List.mem_cons_self
            · have hNil : totalSize [] = 0 := rfl
              simp only [WritevOutcome.count]
              omega
          · intro hRight
            obtain ⟨hAll, hEnd'⟩ := (hRight.resolve_left hTotal).2.resolve_left nofun
            rw [← WritevOutcome.wrote.inj hAll] at hEnd'
            exact absurd hEnd' hEnd

section Whole

variable {mem : Mem} {bufs : List LtBuffer}

theorem length_iovBytes_buffers (mem : Mem) (hPlaced : WellPlaced bufs) :
    (iovBytes mem (bufs.map LtBuffer.iovec)).length = totalSize bufs := by
  rw [length_iovBytes, List.map_map, totalSize]
  congr 1
  refine List.map_congr_left fun b hb => ?_
  have hBounds := hPlaced.bounds b hb
  have hFits := hPlaced.fits b hb
  exact LtBuffer.iovec_len hBounds.2.1 (by omega)

/-- All buffers of a list together come to the end of one, if only the first has been read from. -/
theorem endsAtBuffer_total {b : LtBuffer} (hUnread : ∀ c ∈ bufs, c.pos = c.start)
    (hStart : bufs = [] ∨ totalSize bufs = 0 ∨ b.pos = b.start) :
    EndsAtBuffer (totalSize (b :: bufs)) (b :: bufs) := by
  induction bufs generalizing b with
  | nil => exact Or.inl (by simp [totalSize])
  | cons c bufs ih =>
      rw [List.forall_mem_cons] at hUnread
      rw [totalSize_cons, Nat.cast_add]
      by_cases hRest : totalSize (c :: bufs) = 0
      · exact Or.inl (by rw [hRest]; simp)
      · have hPos : b.pos = b.start := (hStart.resolve_left (List.cons_ne_nil _ _)).resolve_left hRest
        refine Or.inr ⟨by omega, hPos, ?_⟩
        rw [add_sub_cancel_left]
        exact ih hUnread.2 (Or.inr (Or.inr hUnread.1))

/-- `send_buffers` comes back behind a `writev` that takes everything. -/
theorem sendBuffers_whole {b : LtBuffer} (hPlaced : WellPlaced (b :: bufs)) (hFirst : b.pos ≠ b.last)
    (hEnd : EndsAtBuffer (totalSize (b :: bufs)) (b :: bufs)) (hBound : totalSize (b :: bufs) < 2 ^ 31) :
    ∃ bufs', sendBuffers (b :: bufs) (.wrote (totalSize (b :: bufs))) = some (.lok, bufs') := by
  have hSize : 0 < b.size := by
    have hBounds := hPlaced.bounds b List.mem_cons_self
    unfold LtBuffer.size
    omega
  have hTotal := totalSize_cons b bufs
  have hCount : wrap32 (totalSize (b :: bufs)) = totalSize (b :: bufs) := wrap32_of_bounds (by omega) (by omega)
  have hSend : sendBuffers (b :: bufs) (.wrote (totalSize (b :: bufs))) =
      spread ((b :: bufs).map LtBuffer.iovec) (totalSize (b :: bufs)) none (b :: bufs) := by
    rw [sendBuffers, if_neg hFirst]
    simp only [if_neg (show totalSize (b :: bufs) ≠ 0 by omega), hCount]
  have hEnds := spread_ends [] hPlaced (n := (totalSize (b :: bufs) : Int)) (by omega)
  rw [hSend]
  change SpreadEnds [] _ _ (spread ((b :: bufs).map LtBuffer.iovec) (totalSize (b :: bufs)) none (b :: bufs)) at hEnds
  generalize spread ((b :: bufs).map LtBuffer.iovec) (totalSize (b :: bufs)) none (b :: bufs) = result at hEnds ⊢
  cases hEnds with
  | lok bufs' => exact ⟨bufs', rfl⟩
  | wild hNot => exact absurd hEnd hNot
  | lagain hNot => exact absurd hEnd hNot

end Whole

def pairBuffer : LtBuffer := ⟨1, 1, 3, 16385⟩

theorem pairBuffer_placed : WellPlaced [pairBuffer] := by
  refine ⟨?_, ?_, List.pairwise_singleton _ _⟩ <;> simp [pairBuffer]

/-- One of the two bytes is written, and `cur_buf` is not set. -/
theorem sendBuffers_not_accounts :
    ¬ ∀ (bufs : List LtBuffer) (out : WritevOutcome), WellPlaced bufs → bufs ≠ [] →
      (out = .eagain ∨ ∃ n, 1 ≤ n ∧ n ≤ totalSize bufs ∧ out = .wrote n) →
      AccountsForEveryByte bufs out := by
  intro hClaim
  obtain ⟨res, bufs', hSend, -⟩ := hClaim [pairBuffer] (.wrote 1) pairBuffer_placed (by simp)
    (Or.inr ⟨1, by decide, by decide, rfl⟩)
  have hNone : sendBuffers [pairBuffer] (.wrote 1) = none := by decide
  rw [hNone] at hSend
  exact nomatch hSend

def twoBuffers : List LtBuffer := [pairBuffer, ⟨20000, 20000, 20003, 36384⟩]

/-- All five bytes are accounted for, and not the first buffer's two alone. -/
theorem sendBuffers_accounts_iff_twoBuffers :
    AccountsForEveryByte twoBuffers (.wrote 5) ∧ ¬ AccountsForEveryByte twoBuffers (.wrote 2) := by
  have hPlaced : WellPlaced twoBuffers := by
    refine ⟨?_, ?_, ?_⟩ <;> simp [twoBuffers, pairBuffer]
  have hIff (n : Nat) (hPos : 1 ≤ n) (hLe : n ≤ totalSize twoBuffers) :=
    sendBuffers_accounts_iff hPlaced (by decide) (.wrote n) (Or.inr ⟨n, hPos, hLe, rfl⟩)
  constructor
  · refine (hIff 5 (by decide) (by decide)).mpr (Or.inr ⟨by decide, Or.inr ⟨rfl, ?_⟩⟩)
    exact Or.inr ⟨by decide, rfl, Or.inl (by decide)⟩
  · rw [hIff 2 (by decide) (by decide)]
    rintro (hNone | ⟨-, hAgain | ⟨hAll, -⟩⟩)
    · exact absurd hNone (by decide)
    · cases hAgain
    · exact absurd (WritevOutcome.wrote.inj hAll) (by decide)

end Leactor
