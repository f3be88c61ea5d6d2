import Leactor.Net.SendChains

/-! The link behind the last node of a chain. No builder writes it, so that the loop behind
`writev` goes on over the blocks of the chain pool that were not handed out, as the memory
left them. -/
namespace Leactor

open Memory

def chainPoolLength : Nat := 32

/-- The blocks in the pools that `n` allocations have made. Each pool but the last one has
given a block more than its length, at its roll-over. -/
def poolBlocks (n : Nat) : Nat := (chainPoolLength + 1) * (n / (chainPoolLength + 1)) + chainPoolLength

/-- `send_chains` on the chain of a pool, whose other blocks are memory like any other. -/
def sendPooled (chains : Arena LtChain) (first : Nat) (out : WritevOutcome) :
    Option (Res × Arena LtChain × Option Nat) :=
  sendChains (chains.reveal (poolBlocks chains.fresh)) first out

/-- The return value of the loop behind `writev`, from the nodes as they were in front of it.
The nodes of `passed` have no bytes left, so that a link back to one of them is a circle. -/
def walk (chains : Arena LtChain) (curChain : Option Nat) : Nat → List Nat → Option Nat → Int → Option Res
  | _, _, none, _ => some .lok
  | 0, _, some _, _ => none
  | fuel + 1, passed, some i, rv =>
      if i ∈ passed then none
      else
        (chains.get? i).bind fun cur =>
          let iovLen := wrap32 cur.buf.len
          if iovLen ≤ rv then walk chains curChain fuel (i :: passed) cur.next (rv - iovLen)
          else (curChain.bind chains.get?).map fun _ => .lagain

/-- What the loop does behind the last of the `n` nodes of a chain, when all bytes were
written and the blocks of the pool hold `junk`. -/
def chainEnd (junk : Nat → LtChain) (n : Nat) : Option Res :=
  let link := (junk (n - 1)).next
  walk (Arena.reveal ⟨[], junk⟩ (poolBlocks n)) link (poolBlocks n - n) (List.range n) link 0

/-- A slice less all its bytes. -/
theorem wrap32_shrink (v : Iovec) : wrap32 (v.shrink (wrap32 v.len)).len = 0 := by
  simp only [Iovec.shrink, wrap32, toSize, Int.bmod_def]
  split_ifs <;> omega

section Walk

variable {outChain curChain : Option Nat} {chains now : Arena LtChain} {passed : List Nat} {cur : Option Nat}
  {fuel i : Nat} {rv chainLen : Int} {c : LtChain}

/-- A node whose bytes are all written has none left behind the turn. -/
theorem settle_pass (outChain curChain : Option Nat) (fuel : Nat) (chainLen : Int) (hCell : now.get? i = some c)
    (hLen : wrap32 c.buf.len ≤ rv) :
    ∃ g : LtChain → LtChain, (g c).next = c.next ∧ wrap32 (g c).buf.len = 0 ∧
      settle outChain curChain (fuel + 1) (some i) rv chainLen now =
        settle outChain curChain fuel c.next (rv - wrap32 c.buf.len) (chainLen - 1) (now.modify i g) := by
  rcases hLen.lt_or_eq with hLess | hEqual
  · refine ⟨fun d => { d with buf := d.buf.shrink (wrap32 c.buf.len) }, rfl, wrap32_shrink _, ?_⟩
    rw [settle, hCell]
    simp only [if_pos hLess]
  · refine ⟨fun d =>
      { d with buf := { d.buf.shrink rv with base := toSize ((d.buf.base : Int) + wrap32 c.buf.len) } },
      rfl, ?_, ?_⟩
    · have hNone := wrap32_shrink c.buf
      rw [hEqual] at hNone
      exact hNone
    · rw [settle, hCell]
      simp only [hEqual, lt_irrefl, if_false, if_true]

/-- A node with more bytes than are left ends the loop, unless `cur_chain` leads nowhere. -/
theorem settle_rest (hFresh : now.fresh = chains.fresh) (hCell : now.get? i = some c) (hLen : rv < wrap32 c.buf.len) :
    (settle outChain curChain (fuel + 1) (some i) rv chainLen now).map Prod.fst =
      (curChain.bind chains.get?).map fun _ => .lagain := by
  rw [settle, hCell]
  simp only [if_neg (not_lt.mpr hLen.le), if_neg hLen.ne]
  cases curChain with
  | none => rfl
  | some j =>
      simp only [Option.bind_some, Option.map_map]
      exact Arena.map_get?_congr ((Arena.fresh_modify _ _ _).trans hFresh) j Res.lagain

/-- Nodes without bytes that link to each other: the loop has no way to leave. -/
theorem settle_circle (hRing : ∀ j ∈ passed, ∃ d, now.get? j = some d ∧ wrap32 d.buf.len = 0 ∧
      ∃ k ∈ passed, d.next = some k)
    (hi : i ∈ passed) (hRv : 0 ≤ rv) : settle outChain curChain fuel (some i) rv chainLen now = none := by
  induction fuel generalizing i chainLen now with
  | zero => rw [settle]
  | succ fuel ih =>
      obtain ⟨c, hCell, hLen, k, hk, hNext⟩ := hRing i hi
      obtain ⟨g, hKeep, hZero, hTurn⟩ := settle_pass outChain curChain fuel chainLen hCell (hLen.le.trans hRv)
      rw [hTurn, hLen, sub_zero, hNext]
      refine ih (fun j hj => ?_) hk
      by_cases hSame : i = j
      · subst hSame
        exact ⟨g c, by rw [Arena.get?_modify_same, hCell]; rfl, hZero, k, hk, hKeep.trans hNext⟩
      · rw [Arena.get?_modify_other _ hSame]
        exact hRing j hj

/-- The nodes of `passed` have been passed on the way to `cur`, and the others are as they were. -/
structure Passing (chains now : Arena LtChain) (passed : List Nat) (cur : Option Nat) : Prop where
  fresh : now.fresh = chains.fresh
  ahead : ∀ i, i ∉ passed → now.get? i = chains.get? i
  behind : ∀ i ∈ passed, ∃ c, now.get? i = some c ∧ wrap32 c.buf.len = 0 ∧
    (c.next = cur ∨ ∃ j ∈ passed, c.next = some j)

/-- One more node is passed. -/
theorem Passing.pass {g : LtChain → LtChain} (h : Passing chains now passed (some i)) (hCell : now.get? i = some c)
    (hKeep : (g c).next = c.next) (hZero : wrap32 (g c).buf.len = 0) :
    Passing chains (now.modify i g) (i :: passed) c.next := by
  refine ⟨(Arena.fresh_modify _ _ _).trans h.fresh, fun j hj => ?_, fun j hj => ?_⟩
  · rw [List.mem_cons, not_or] at hj
    rw [Arena.get?_modify_other _ (Ne.symm hj.1), h.ahead j hj.2]
  · by_cases hSame : i = j
    · subst hSame
      exact ⟨g c, by rw [Arena.get?_modify_same, hCell]; rfl, hZero, Or.inl hKeep⟩
    · obtain ⟨d, hd, hLen, hNext⟩ := h.behind j ((List.mem_cons.mp hj).resolve_left (Ne.symm hSame))
      refine ⟨d, (Arena.get?_modify_other _ hSame).trans hd, hLen, Or.inr ?_⟩
      rcases hNext with hHere | ⟨k, hk, hThere⟩
      · exact ⟨i, List.mem_cons_self, hHere⟩
      · exact ⟨k, List.mem_cons_of_mem _ hk, hThere⟩

/-- The return value does not depend on what the loop does to the nodes: it follows the
links, the counts and the lengths that it finds. -/
theorem settle_fst (h : Passing chains now passed cur) (hRv : 0 ≤ rv) :
    (settle outChain curChain fuel cur rv chainLen now).map Prod.fst = walk chains curChain fuel passed cur rv := by
  induction fuel generalizing cur passed rv chainLen now with
  | zero => cases cur <;> rw [settle, walk] <;> rfl
  | succ fuel ih =>
      cases cur with
      | none =>
          rw [settle, walk]
          rfl
      | some i =>
          rw [walk]
          by_cases hMem : i ∈ passed
          · rw [if_pos hMem, settle_circle (fun j hj => ?_) hMem hRv]
            · rfl
            · obtain ⟨d, hd, hLen, hNext⟩ := h.behind j hj
              exact ⟨d, hd, hLen, hNext.elim (fun hHere => ⟨i, hMem, hHere⟩) id⟩
          · rw [if_neg hMem, ← h.ahead i hMem]
            cases hCell : now.get? i with
            | none =>
                rw [settle, hCell]
                rfl
            | some c =>
                simp only [Option.bind_some]
                by_cases hLen : wrap32 c.buf.len ≤ rv
                · obtain ⟨g, hKeep, hZero, hTurn⟩ := settle_pass outChain curChain fuel chainLen hCell hLen
                  rw [hTurn, if_pos hLen]
                  exact ih (h.pass hCell hKeep hZero) (sub_nonneg.mpr hLen)
                · rw [if_neg hLen]
                  exact settle_rest h.fresh hCell (not_le.mp hLen)

/-- The walk looks at the nodes that it has not passed. -/
theorem walk_congr {other : Arena LtChain} {passed' : List Nat} (hFresh : chains.fresh = other.fresh)
    (hAhead : ∀ i, i ∉ passed → chains.get? i = other.get? i) (hSame : ∀ i, i ∈ passed ↔ i ∈ passed') :
    walk chains curChain fuel passed cur rv = walk other curChain fuel passed' cur rv := by
  induction fuel generalizing passed passed' cur rv with
  | zero => cases cur <;> rw [walk, walk]
  | succ fuel ih =>
      cases cur with
      | none => rw [walk, walk]
      | some i =>
          rw [walk, walk]
          by_cases hMem : i ∈ passed
          · rw [if_pos hMem, if_pos ((hSame i).mp hMem)]
          · rw [if_neg hMem, if_neg (mt (hSame i).mpr hMem), ← hAhead i hMem]
            refine congrArg _ (funext fun c => ?_)
            have hNext : walk chains curChain fuel (i :: passed) c.next (rv - wrap32 c.buf.len) =
                walk other curChain fuel (i :: passed') c.next (rv - wrap32 c.buf.len) :=
              ih (fun j hj => hAhead j fun hOld => hj (List.mem_cons_of_mem _ hOld))
                fun j => by rw [List.mem_cons, List.mem_cons, hSame]
            simp only [hNext]
            cases curChain with
            | none => rfl
            | some j => rw [Option.bind_some, Option.bind_some, Arena.map_get?_congr hFresh j Res.lagain]

/-- The walk over the nodes of a chain from its `k`-th one on, when all its bytes were written. -/
theorem walk_row {bufs : List Iovec} {link : Option Nat} {k : Nat} (curChain : Option Nat) (n fuel : Nat)
    (hRow : Arena.Row LtChain.next (fun b c => c.buf = b) chains 0 bufs) (hBound : (bufs.map Iovec.len).sum < 2 ^ 31)
    (hLast : ∀ c, chains.get? (chains.fresh - 1) = some c → c.next = link) (hk : k < bufs.length) :
    walk (chains.reveal n) curChain (fuel + (bufs.length - k)) (List.range k).reverse (some k)
        (((bufs.drop k).map Iovec.len).sum : Nat) =
      walk (chains.reveal n) curChain fuel (List.range bufs.length).reverse link 0 := by
  have hFresh := hRow.fresh
  induction hm : bufs.length - k generalizing k with
  | zero => omega
  | succ m ih =>
      obtain ⟨c, hc, hBuf, hNext⟩ := hRow.cell k _ (List.getElem?_eq_getElem hk)
      rw [Nat.zero_add] at hc hNext hFresh
      have hDrop := List.drop_eq_getElem_cons hk
      have hPart : ((bufs.drop k).map Iovec.len).sum ≤ (bufs.map Iovec.len).sum := by
        exact ((List.drop_sublist k bufs).map _).sum_le_sum fun _ _ => Nat.zero_le _
      rw [hDrop, List.map_cons, List.sum_cons, ← hBuf] at hPart ⊢
      have hLen : wrap32 (c.buf.len : Int) = c.buf.len := wrap32_of_bounds (by omega) (by omega)
      have hPassed : k :: (List.range k).reverse = (List.range (k + 1)).reverse := by
        rw [List.range_succ, List.reverse_append]
        rfl
      rw [← Nat.add_assoc, walk, if_neg (by simp), Arena.get?_reveal_of_some n hc, Option.bind_some]
      simp only [hLen]
      rw [if_pos (by rw [Nat.cast_add]; omega), hPassed, Nat.cast_add, add_sub_cancel_left]
      by_cases hEnd : k + 1 = bufs.length
      · obtain rfl : m = 0 := by omega
        rw [hLast c (by rw [hFresh, ← hEnd, Nat.add_sub_cancel]; exact hc), hEnd, List.drop_length]
        rfl
      · rw [hNext (by omega)]
        exact ih (by omega) (by omega)

end Walk

theorem le_poolBlocks (n : Nat) : n ≤ poolBlocks n := by
  unfold poolBlocks chainPoolLength
  omega

/-- The blocks behind a chain do not change the vector. -/
theorem gather_reveal {chains : Arena LtChain} {n : Nat} {cur : Option Nat} {vec : List Iovec × Option Nat} (k : Nat)
    (h : gather chains n cur = some vec) : gather (chains.reveal k) n cur = some vec := by
  induction n generalizing cur vec with
  | zero => exact h
  | succ n ih =>
      rw [gather, Option.bind_eq_some_iff] at h ⊢
      obtain ⟨c, hCell, hRest⟩ := h
      obtain ⟨i, rfl, hGet⟩ := Option.bind_eq_some_iff.mp hCell
      obtain ⟨rest, hGather, rfl⟩ := Option.map_eq_some_iff.mp hRest
      exact ⟨c, Arena.get?_reveal_of_some k hGet, by rw [ih hGather]; rfl⟩

theorem outVec_reveal {chains : Arena LtChain} {first : Nat} {vec : List Iovec × Option Nat} (k : Nat)
    (h : outVec chains first = some vec) : outVec (chains.reveal k) first = some vec := by
  obtain ⟨c, hCell, hGather⟩ := Option.bind_eq_some_iff.mp h
  rw [outVec, Arena.get?_reveal_of_some k hCell]
  exact gather_reveal k hGather

/-- With NULL behind the last node the rest of the pool is out of reach. -/
theorem sendPooled_whole (mem : Mem) {chains : Arena LtChain} {first : Nat} {bufs : List Iovec}
    (hChain : outVec chains first = some (bufs, none)) (hBytes : iovBytes mem bufs ≠ []) :
    ∃ chains', sendPooled chains first (.wrote (iovBytes mem bufs).length) = some (.lok, chains', some first) :=
  sendChains_whole mem (outVec_reveal _ hChain) hBytes

/-- A chain with a NULL last link of which bytes are written comes out as sent. -/
theorem sendPooled_null {chains chains' : Arena LtChain} {first n : Nat} {vec : List Iovec × Option Nat} {res : Res}
    {out : Option Nat} (hVec : outVec chains first = some vec) (hLast : vec.2 = none) (hn : n ≠ 0)
    (hSend : sendPooled chains first (.wrote n) = some (res, chains', out)) : res = .lok := by
  obtain ⟨bufs, last⟩ := vec
  simp only at hLast
  subst hLast
  have hRevealed := outVec_reveal (poolBlocks chains.fresh) hVec
  obtain ⟨c, hCell, -⟩ := Option.bind_eq_some_iff.mp hRevealed
  simp only [sendPooled, sendChains, hRevealed, hCell, if_neg hn] at hSend
  exact settle_null hSend

/-- A chain that `writev` refuses. -/
theorem sendPooled_eagain {chains : Arena LtChain} {first : Nat} {vec : List Iovec × Option Nat}
    (hVec : outVec chains first = some vec) :
    sendPooled chains first .eagain = some (.lagain, chains.reveal (poolBlocks chains.fresh), vec.2) := by
  have hRevealed := outVec_reveal (poolBlocks chains.fresh) hVec
  obtain ⟨c, hCell, -⟩ := Option.bind_eq_some_iff.mp hRevealed
  simp only [sendPooled, sendChains, hRevealed, hCell]

/-- A chain alone in its pool, with all its bytes written: what the call returns hangs on
the blocks that its last link leads to. -/
theorem BuiltChain.sendPooled_fst {junk : Nat → LtChain} {chains : Arena LtChain} {bufs : List Iovec}
    (mem : Mem) (h : BuiltChain junk chains 0 bufs) (hBytes : iovBytes mem bufs ≠ [])
    (hBound : (iovBytes mem bufs).length < 2 ^ 31) :
    (sendPooled chains 0 (.wrote (iovBytes mem bufs).length)).map Prod.fst = chainEnd junk bufs.length := by
  have hNe : bufs ≠ [] := fun hNil => hBytes (by rw [hNil]; rfl)
  have hPos := List.length_pos_iff.mpr hBytes
  have hFresh := h.row.fresh
  rw [Nat.zero_add] at hFresh
  have hLe := le_poolBlocks bufs.length
  obtain ⟨c, hc, -⟩ := h.length
  have hVec := outVec_reveal (poolBlocks chains.fresh) (h.outVec hNe)
  have hRevealed := Arena.fresh_reveal (a := chains) (n := poolBlocks chains.fresh) (le_poolBlocks _)
  simp only [sendPooled, sendChains, hVec, Arena.get?_reveal_of_some _ hc,
    if_neg (show (iovBytes mem bufs).length ≠ 0 by omega)]
  rw [settle_fst ⟨rfl, fun _ _ => rfl, fun _ hNone => absurd hNone List.not_mem_nil⟩ (Nat.cast_nonneg _),
    hRevealed, hFresh]
  rw [length_iovBytes] at hBound ⊢
  have hRow := walk_row (junk (bufs.length - 1)).next (poolBlocks bufs.length)
    (poolBlocks bufs.length - bufs.length) h.row hBound (fun c hLast => h.last c hNe hLast)
    (List.length_pos_iff.mpr hNe)
  rw [Nat.sub_zero, Nat.sub_add_cancel hLe, hFresh] at hRow
  refine hRow.trans (walk_congr ?_ (fun i hi => ?_) fun i => List.mem_reverse)
  · rw [Arena.fresh_reveal (hFresh.le.trans hLe), Arena.fresh_reveal (Nat.zero_le _)]
  · rw [List.mem_reverse, List.mem_range] at hi
    rw [Arena.get?_reveal, Arena.get?_reveal, if_neg (hFresh ▸ hi), h.junk_eq,
      if_neg (show ¬ i < Arena.fresh ⟨[], junk⟩ from Nat.not_lt_zero i)]

end Leactor
