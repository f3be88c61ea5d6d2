import Leactor.Http.Chains

/-! Sending a chain: `send_chains` of buffer_op_lea.c, which builds the vector of a
chain, writes it once, and then walks the chain to see what was written. -/
namespace Leactor

open Memory

/-- The loop that fills `out_vec`: the slices of `n` nodes from `cur` on, and
the link of the last of them. `none` is a step over a NULL pointer. -/
def gather (chains : Arena LtChain) : Nat → Option Nat → Option (List Iovec × Option Nat)
  | 0, cur => some ([], cur)
  | n + 1, cur =>
      (cur.bind chains.get?).bind fun c =>
        (gather chains n c.next).map fun rest => (c.buf :: rest.1, rest.2)

/-- The `chain_len` slices of the chain at a node. -/
def outVec (chains : Arena LtChain) (first : Nat) : Option (List Iovec × Option Nat) :=
  (chains.get? first).bind fun c => gather chains c.chainLen.toNat (some first)

/-- The loop reads a row of nodes up to its last link. -/
theorem gather_row {chains : Arena LtChain} {first i : Nat} {bufs : List Iovec}
    (hRow : Arena.Row LtChain.next (fun b c => c.buf = b) chains first bufs) (hi : i < bufs.length) :
    ∃ c, chains.get? (chains.fresh - 1) = some c ∧
      gather chains (bufs.length - i) (some (first + i)) = some (bufs.drop i, c.next) := by
  have hFresh := hRow.fresh
  induction hn : bufs.length - i generalizing i with
  | zero => omega
  | succ n ih =>
      obtain ⟨c, hc, hBuf, hNext⟩ := hRow.cell i _ (List.getElem?_eq_getElem hi)
      have hGet : (some (first + i)).bind chains.get? = some c := hc
      rw [List.drop_eq_getElem_cons hi, ← hBuf]
      by_cases hLast : i + 1 = bufs.length
      · obtain rfl : n = 0 := by omega
        refine ⟨c, by rwa [hFresh, show first + bufs.length - 1 = first + i by omega], ?_⟩
        rw [List.drop_of_length_le (by omega)]
        simp [gather, hGet]
      · obtain ⟨d, hd, hRest⟩ := ih (i := i + 1) (by omega) (by omega)
        refine ⟨d, hd, ?_⟩
        rw [gather, hGet, Option.bind_some, hNext (by omega), Nat.add_assoc, hRest]
        rfl

/-- A finished chain is gathered whole; behind it stands the stale link of its last block. -/
theorem BuiltChain.outVec {junk : Nat → LtChain} {chains : Arena LtChain} {first : Nat}
    {bufs : List Iovec} (h : BuiltChain junk chains first bufs) (hNe : bufs ≠ []) :
    outVec chains first = some (bufs, (junk (chains.fresh - 1)).next) := by
  obtain ⟨c, hc, hLength⟩ := h.length
  obtain ⟨d, hd, hGather⟩ := gather_row h.row (i := 0) (List.length_pos_iff.mpr hNe)
  rw [Leactor.outVec, hc, Option.bind_some, hLength, Int.toNat_natCast, ← h.last d hNe hd]
  simpa using hGather

/-- What `writev` does: it takes some bytes, or fails with an `errno`. -/
inductive WritevOutcome where
  | wrote (n : Nat)
  | eagain
  | epipe
  | error
  deriving DecidableEq, Repr

def WritevOutcome.count : WritevOutcome → Nat
  | .wrote n => n
  | _ => 0

/-- `iov_len -= len`, where `len` is an `int`. -/
def Iovec.shrink (v : Iovec) (len : Int) : Iovec := { v with len := toSize ((v.len : Int) - len) }

/-- The loop of `send_chains` behind `writev`, at the node `cur` with `rv` bytes
and `chain_len` nodes left; `cur_chain` is still where the first loop left it.
`none` is a step over a NULL or wild pointer, or a walk over more nodes than
there are, which is one in a circle. -/
def settle (outChain curChain : Option Nat) :
    Nat → Option Nat → Int → Int → Arena LtChain → Option (Res × Arena LtChain × Option Nat)
  | _, none, _, _, chains => some (.lok, chains, outChain)
  | 0, some _, _, _, _ => none
  | fuel + 1, some i, rv, chainLen, chains =>
      match chains.get? i with
      | none => none
      | some cur =>
          let iovLen := wrap32 cur.buf.len
          if iovLen < rv then
            settle outChain curChain fuel cur.next (rv - iovLen) (chainLen - 1)
              (chains.modify i fun c => { c with buf := c.buf.shrink iovLen })
          else
            let chains := chains.modify i fun c =>
              { c with buf := { c.buf.shrink rv with base := toSize ((c.buf.base : Int) + iovLen) } }
            if rv = iovLen then settle outChain curChain fuel cur.next (rv - iovLen) (chainLen - 1) chains
            else
              match curChain with
              | none => none
              | some j =>
                  (chains.get? j).map fun _ =>
                    (.lagain, chains.modify j fun c => { c with chainLen := wrap32 chainLen }, some j)

/-- `send_chains` on the chain at `first`: its return value, the nodes, and what
it leaves in `*out_chain`. -/
def sendChains (chains : Arena LtChain) (first : Nat) (out : WritevOutcome) :
    Option (Res × Arena LtChain × Option Nat) :=
  match outVec chains first, chains.get? first with
  | some (_, curChain), some c =>
      match out with
      | .eagain => some (.lagain, chains, curChain)
      | .epipe => some (.lclose, chains, some first)
      | .error => some (.lerror, chains, some first)
      | .wrote n =>
          if n = 0 then some (.lclose, chains, some first)
          else settle (some first) curChain chains.fresh (some first) n c.chainLen chains
  | _, _ => none

def iovBytes (mem : Mem) (bufs : List Iovec) : List UInt8 :=
  bufs.flatMap fun v => slice mem v.base (v.base + v.len)

theorem length_iovBytes (mem : Mem) (bufs : List Iovec) :
    (iovBytes mem bufs).length = (bufs.map Iovec.len).sum := by
  simp [iovBytes, List.length_flatMap]

theorem wrap32_le (n : Nat) : wrap32 n ≤ n := by
  unfold wrap32
  rw [Int.bmod_def]
  split_ifs <;> omega

/-- The slices that the first loop gathers lie on a path. -/
theorem path_of_gather {chains : Arena LtChain} {n : Nat} {cur last : Option Nat} {bufs : List Iovec}
    (h : gather chains n cur = some (bufs, last)) :
    ∃ cells, Arena.Path LtChain.next chains cur cells last ∧ bufs = cells.map fun x => x.2.buf := by
  induction n generalizing cur bufs with
  | zero =>
      cases h
      exact ⟨[], .nil _, rfl⟩
  | succ n ih =>
      cases cur with
      | none => exact nomatch h
      | some i =>
          rw [gather, Option.bind_some] at h
          cases hCell : chains.get? i with
          | none =>
              rw [hCell] at h
              exact nomatch h
          | some c =>
              rw [hCell, Option.bind_some, Option.map_eq_some_iff] at h
              obtain ⟨⟨rest, link⟩, hRest, hPair⟩ := h
              cases hPair
              obtain ⟨cells, hPath, rfl⟩ := ih hRest
              exact ⟨(i, c) :: cells, .cons hCell hPath, rfl⟩

/-- With NULL in `cur_chain` the loop has no way to return `LAGAIN`, so that a short
write is reported as a complete one where it returns at all. -/
theorem settle_null {outChain cur out : Option Nat} {fuel : Nat} {rv chainLen : Int}
    {chains chains' : Arena LtChain} {res : Res}
    (h : settle outChain none fuel cur rv chainLen chains = some (res, chains', out)) : res = .lok := by
  induction fuel generalizing cur rv chainLen chains with
  | zero =>
      cases cur with
      | none =>
          rw [settle] at h
          cases h
          rfl
      | some i => exact nomatch h
  | succ fuel ih =>
      cases cur with
      | none =>
          rw [settle] at h
          cases h
          rfl
      | some i =>
          rw [settle] at h
          cases hCell : chains.get? i with
          | none =>
              rw [hCell] at h
              exact nomatch h
          | some c =>
              simp only [hCell] at h
              split_ifs at h
              · exact ih h
              · exact ih h

/-- A path that carries no more bytes than were written is walked to its end. -/
theorem settle_path (outChain curChain : Option Nat) (rv chainLen : Int) {cur : Option Nat} {fuel : Nat}
    {chains : Arena LtChain} {cells : List (Nat × LtChain)}
    (hPath : Arena.Path LtChain.next chains cur cells none) (hFuel : cells.length ≤ fuel)
    (hBytes : (((cells.map fun x => x.2.buf.len).sum : Nat) : Int) ≤ rv) :
    ∃ chains', settle outChain curChain fuel cur rv chainLen chains = some (.lok, chains', outChain) := by
  induction cells generalizing cur fuel chains rv chainLen with
  | nil =>
      cases hPath
      exact ⟨chains, by rw [settle]⟩
  | cons x cells ih =>
      have hOff := (List.nodup_cons.mp hPath.nodup).1
      cases hPath with
      | @cons i c _ _ hCell hRest =>
          obtain ⟨fuel, rfl⟩ := Nat.exists_eq_add_of_le' (show 1 ≤ fuel by
            rw [List.length_cons] at hFuel
            omega)
          have hLe := wrap32_le c.buf.len
          simp only [List.map_cons, List.sum_cons, Nat.cast_add, List.length_cons] at hBytes hFuel
          rw [settle, hCell]
          simp only
          by_cases hLt : wrap32 c.buf.len < rv
          · rw [if_pos hLt]
            exact ih _ _ (hRest.modify _ hOff) (by omega) (by omega)
          · have hSame : rv = wrap32 c.buf.len := by omega
            rw [if_neg hLt, if_pos hSame]
            exact ih _ _ (hRest.modify _ hOff) (by omega) (by omega)

/-- A chain that ends in NULL, with all its bytes written. -/
theorem sendChains_whole (mem : Mem) {chains : Arena LtChain} {first : Nat} {bufs : List Iovec}
    (hChain : outVec chains first = some (bufs, none)) (hBytes : iovBytes mem bufs ≠ []) :
    ∃ chains', sendChains chains first (.wrote (iovBytes mem bufs).length) =
      some (.lok, chains', some first) := by
  obtain ⟨c, hGet, hGather⟩ : ∃ c, chains.get? first = some c ∧
      gather chains c.chainLen.toNat (some first) = some (bufs, none) := by
    rw [outVec] at hChain
    exact Option.bind_eq_some_iff.mp hChain
  obtain ⟨cells, hPath, hBufs⟩ := path_of_gather hGather
  have hPos := List.length_pos_iff.mpr hBytes
  have hSum : (cells.map fun x => x.2.buf.len).sum = (iovBytes mem bufs).length := by
    rw [length_iovBytes, hBufs, List.map_map]
    rfl
  obtain ⟨chains', hSettle⟩ := settle_path (some first) none ((iovBytes mem bufs).length : Int) c.chainLen
    hPath hPath.length_le (by rw [hSum])
  refine ⟨chains', ?_⟩
  simp only [sendChains, hChain, hGet, if_neg (show (iovBytes mem bufs).length ≠ 0 by omega)]
  exact hSettle

/-- What one call owes to its caller: `LOK` exactly when `total` bytes were written, and
otherwise `LAGAIN` with a chain in `*out_chain` that holds the unwritten bytes. -/
def KeepsSuffix (mem : Mem) (chains : Arena LtChain) (first : Nat) (w : List UInt8) (out : WritevOutcome) :
    Prop :=
  ∃ res chains' rest, sendChains chains first out = some (res, chains', rest) ∧
    (res = .lok ↔ out = .wrote w.length) ∧
    (res ≠ .lok → res = .lagain ∧ ∃ node bufs, rest = some node ∧
      outVec chains' node = some (bufs, none) ∧
      iovBytes mem bufs = w.drop out.count)

/-- `send_chains` keeps the unsent suffix of a chain only where there is none: of all
answers of `writev`, only a write of all bytes is met. The chain is any chain that ends
with a null link and holds a byte. -/
theorem sendChains_keepsSuffix_iff (mem : Mem) {chains : Arena LtChain} {first : Nat} {bufs : List Iovec}
    (hChain : outVec chains first = some (bufs, none)) (hBytes : iovBytes mem bufs ≠ [])
    (out : WritevOutcome)
    (hOut : out = .eagain ∨ ∃ n, 1 ≤ n ∧ n ≤ (iovBytes mem bufs).length ∧ out = .wrote n) :
    KeepsSuffix mem chains first (iovBytes mem bufs) out ↔ out = .wrote (iovBytes mem bufs).length := by
  obtain ⟨c, hGet, -⟩ : ∃ c, chains.get? first = some c ∧
      gather chains c.chainLen.toNat (some first) = some (bufs, none) := by
    rw [outVec] at hChain
    exact Option.bind_eq_some_iff.mp hChain
  constructor
  · rintro ⟨res, chains', rest, hSend, hLok, hRest⟩
    rcases hOut with rfl | ⟨n, hn, -, rfl⟩
    · simp only [sendChains, hChain, hGet, Option.some.injEq, Prod.mk.injEq] at hSend
      obtain ⟨rfl, rfl, rfl⟩ := hSend
      obtain ⟨-, node, bufs', hNone, -⟩ := hRest (by decide)
      exact nomatch hNone
    · simp only [sendChains, hChain, hGet, if_neg (show n ≠ 0 by omega)] at hSend
      exact hLok.mp (settle_null hSend)
  · rintro rfl
    obtain ⟨chains', hSend⟩ := sendChains_whole mem hChain hBytes
    exact ⟨.lok, chains', some first, hSend, by simp, by simp⟩

def pairChain : Arena LtChain := ⟨[⟨⟨1, 2⟩, none, 1⟩], fun _ => ⟨⟨0, 0⟩, none, 0⟩⟩

/-- Of the two bytes only one is written. -/
theorem sendChains_not_keepsSuffix :
    ¬ ∀ (mem : Mem) (chains : Arena LtChain) (first : Nat) (bufs : List Iovec) (out : WritevOutcome),
      outVec chains first = some (bufs, none) → iovBytes mem bufs ≠ [] →
      (out = .eagain ∨ ∃ n, 1 ≤ n ∧ n ≤ (iovBytes mem bufs).length ∧ out = .wrote n) →
      KeepsSuffix mem chains first (iovBytes mem bufs) out := by
  intro hClaim
  obtain ⟨res, chains', rest, hSend, -⟩ := hClaim (fun _ => 0) pairChain 0 [⟨1, 2⟩] (.wrote 1) rfl
    (by decide) (Or.inr ⟨1, by decide, by decide, rfl⟩)
  exact nomatch hSend

def twoNodeChain : Arena LtChain :=
  ⟨[⟨⟨1, 2⟩, some 1, 2⟩, ⟨⟨3, 3⟩, none, 0⟩], fun _ => ⟨⟨0, 0⟩, none, 0⟩⟩

theorem sendChains_keepsSuffix_iff_twoNodeChain :
    KeepsSuffix (fun _ => 7) twoNodeChain 0 (List.replicate 5 7) (.wrote 5) ∧
      ¬ KeepsSuffix (fun _ => 7) twoNodeChain 0 (List.replicate 5 7) (.wrote 3) ∧
      ¬ KeepsSuffix (fun _ => 7) twoNodeChain 0 (List.replicate 5 7) .eagain := by
  have hVec : outVec twoNodeChain 0 = some ([⟨1, 2⟩, ⟨3, 3⟩], none) := rfl
  have hEach := sendChains_keepsSuffix_iff (fun _ => 7) hVec (by decide)
  refine ⟨(hEach _ ?_).mpr (by decide), fun hKeeps => ?_, fun hKeeps => ?_⟩
  · exact Or.inr ⟨5, by decide, by decide, rfl⟩
  · exact absurd ((hEach _ (Or.inr ⟨3, by decide, by decide, rfl⟩)).mp hKeeps) (by decide)
  · exact absurd ((hEach _ (Or.inl rfl)).mp hKeeps) (by decide)

end Leactor
