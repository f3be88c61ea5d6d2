import Leactor.Http.Elements

/-! The chains of outgoing slices: `http_construct_request_chains` and
`construct_response_chains`. `lt_alloc` is taken to hand out fresh nodes, as
`Pool.TypedPool.room_iff_le` says for the first 32 of a chain pool. -/
namespace Leactor

open Ascii Scan Loop Memory

structure Iovec where
  base : Nat
  len : Nat
  deriving DecidableEq, Repr

/-- `lt_chain_t`, less its unused `pool`. -/
structure LtChain where
  buf : Iovec
  next : Option Nat
  chainLen : Int

/-- The slice `s` with `extra` more bytes. The sum is an `int` that becomes a `size_t`. -/
def LtString.widen (s : LtString) (extra : Int) : Iovec :=
  ⟨s.data, toSize (wrap32 (s.length + extra))⟩

def Iovec.grow (v : Iovec) : Iovec := { v with len := (v.len + 2) % 2 ^ 64 }

/-- A new chain node with the slice `buf`, linked behind `prev`. Its `next` and
`chain_len` are what the block held before. -/
def appendChain (chains : Arena LtChain) (prev : Option Nat) (buf : Iovec) : Arena LtChain :=
  let (id, chains) := chains.alloc
  let chains := match prev with
    | some p => chains.modify p fun c => { c with next := some id }
    | none => chains
  chains.modify id fun c => { c with buf := buf }

/-- The loop over the header elements, which both builders share: two nodes for
each element, the last value with two more bytes. `none` is a NULL element, or
a list that does not come to its tail within `fuel` elements. -/
def appendElements (elements : Arena LtHttpHeaderElement) (tail : Option Nat) :
    Nat → Option Nat → Arena LtChain → Option (Arena LtChain)
  | 0, _, _ => none
  | fuel + 1, element, chains =>
      match element.bind elements.get? with
      | none => none
      | some e =>
          let chains := appendChain chains (some (chains.fresh - 1)) (e.key.widen 2)
          let value := e.value.widen 2
          if element = tail then
            some (appendChain chains (some (chains.fresh - 1)) value.grow)
          else
            appendElements elements tail fuel e.next
              (appendChain chains (some (chains.fresh - 1)) value)

def setChainLen (chains : Arena LtChain) (first : Nat) : Arena LtChain :=
  chains.modify first fun c => { c with chainLen := (chains.fresh - first : Nat) }

/-- `http_construct_request_chains`. The blocks of the request's chain pool are
fresh, so the new nodes are the ones from the returned node on. -/
def httpConstructRequestChains (h : Head) (chains : Arena LtChain) : Option (Nat × Arena LtChain) :=
  let r := h.req
  let first := chains.fresh
  let chains := appendChain chains none (r.methodName.widen 1)
  let chains := appendChain chains (some first) (r.uri.widen 1)
  let chains := appendChain chains (some (first + 1)) (r.httpProtocol.widen 2)
  match r.elementHead with
  | none => some (first, setChainLen chains first)
  | some element =>
      (appendElements h.elements r.elementTail h.elements.fresh (some element) chains).map fun chains =>
        (first, setChainLen chains first)

/-- `construct_response_chains`, which does not test the list for NULL. -/
def constructResponseChains (h : Head) (chains : Arena LtChain) : Option (Nat × Arena LtChain) :=
  let r := h.req
  let first := chains.fresh
  let chains := appendChain chains none (r.requestLine.widen 2)
  (appendElements h.elements r.elementTail h.elements.fresh r.elementHead chains).map fun chains =>
    (first, setChainLen chains first)

def elementIovecs : List (LtString × LtString) → List Iovec
  | [] => []
  | [f] => [f.1.widen 2, (f.2.widen 2).grow]
  | f :: g :: fields => f.1.widen 2 :: f.2.widen 2 :: elementIovecs (g :: fields)

def requestIovecs (r : RequestT) (fields : List (LtString × LtString)) : List Iovec :=
  [r.methodName.widen 1, r.uri.widen 1, r.httpProtocol.widen 2] ++ elementIovecs fields

def responseIovecs (r : RequestT) (fields : List (LtString × LtString)) : List Iovec :=
  [r.requestLine.widen 2] ++ elementIovecs fields

/-- The nodes from `first` on hold `bufs`, and the last link is the stale one of its block. -/
structure ChainRow (junk : Nat → LtChain) (chains : Arena LtChain) (first : Nat) (bufs : List Iovec) :
    Prop where
  junk_eq : chains.junk = junk
  row : Arena.Row LtChain.next (fun b c => c.buf = b) chains first bufs
  last : ∀ c, bufs ≠ [] → chains.get? (chains.fresh - 1) = some c →
    c.next = (junk (chains.fresh - 1)).next

theorem chainRow_nil (chains : Arena LtChain) : ChainRow chains.junk chains chains.fresh [] :=
  ⟨rfl, .nil chains, fun _ h => absurd rfl h⟩

theorem appendChain_eq (chains : Arena LtChain) (prev : Option Nat) (buf : Iovec) :
    appendChain chains prev buf =
      (match prev with
        | some p => chains.alloc.2.modify p fun c => { c with next := some chains.fresh }
        | none => chains.alloc.2).modify chains.fresh fun c => { c with buf := buf } := rfl

/-- A node appended to a chain. It is linked from the one before it, and its own link is
what the block held. -/
theorem ChainRow.append {junk : Nat → LtChain} {chains : Arena LtChain} {first : Nat}
    {bufs : List Iovec} (prev : Option Nat) (buf : Iovec) (h : ChainRow junk chains first bufs)
    (hPrev : prev = if bufs = [] then none else some (chains.fresh - 1)) :
    ChainRow junk (appendChain chains prev buf) first (bufs ++ [buf]) := by
  have hFresh : (appendChain chains prev buf).fresh = chains.fresh + 1 := by
    rw [appendChain_eq, Arena.fresh_modify]
    cases prev <;> simp
  have hJunk : (appendChain chains prev buf).junk = chains.junk := by
    cases prev <;> rfl
  have hNew : (appendChain chains prev buf).get? chains.fresh =
      some { chains.junk chains.fresh with buf := buf } := by
    have hAlloc := chains.get?_alloc_fresh
    have hSelf : prev ≠ some chains.fresh := by
      rw [hPrev]
      split_ifs with hEmpty
      · exact nofun
      · have hPos := List.length_pos_iff.mpr hEmpty
        have hRow := h.row.fresh
        simp only [ne_eq, Option.some.injEq]
        omega
    rw [appendChain_eq]
    cases prev with
    | none =>
        simp only
        rw [Arena.get?_modify_same, hAlloc]
        rfl
    | some p =>
        have hOther : p ≠ chains.fresh := fun h => hSelf (by rw [h])
        rw [Arena.get?_modify_same]
        simp only
        rw [Arena.get?_modify_other _ hOther, hAlloc]
        rfl
  have hOld : ∀ i c, i + 1 < chains.fresh → chains.get? i = some c →
      (appendChain chains prev buf).get? i = some c := by
    intro i c hi hc
    rw [appendChain_eq, Arena.get?_modify_other _ (show chains.fresh ≠ i by omega), hPrev]
    split_ifs
    · exact (Arena.get?_alloc (by omega)).trans hc
    · simp only
      rw [Arena.get?_modify_other _ (by omega), Arena.get?_alloc (by omega), hc]
  refine ⟨hJunk.trans h.junk_eq, h.row.append hFresh ⟨_, hNew, rfl⟩ hOld ?_, ?_⟩
  · intro hNe c hc
    have hPos := List.length_pos_iff.mpr hNe
    have hRow := h.row.fresh
    refine ⟨{ c with next := some chains.fresh }, ?_, fun _ hKeep => hKeep, rfl⟩
    rw [appendChain_eq, Arena.get?_modify_other _ (show chains.fresh ≠ chains.fresh - 1 by omega),
      hPrev, if_neg hNe]
    simp only
    rw [Arena.get?_modify_same, Arena.get?_alloc (by omega), hc]
    rfl
  · intro c _ hc
    rw [hFresh, Nat.add_sub_cancel, hNew] at hc
    cases hc
    rw [hFresh, Nat.add_sub_cancel, ← h.junk_eq]

/-- A further node, when there is one already. -/
theorem ChainRow.extend {junk : Nat → LtChain} {chains : Arena LtChain} {first : Nat}
    {bufs : List Iovec} (buf : Iovec) (h : ChainRow junk chains first bufs) (hNe : bufs ≠ []) :
    ChainRow junk (appendChain chains (some (chains.fresh - 1)) buf) first (bufs ++ [buf]) :=
  h.append _ buf (by rw [if_neg hNe])

def LtHttpHeaderElement.slices (e : LtHttpHeaderElement) : LtString × LtString := (e.key, e.value)

/-- The elements that are linked from `element_head` to `element_tail`, which stands
at the end only. -/
structure LinkedElements (h : Head) (cells : List (Nat × LtHttpHeaderElement)) : Prop where
  path : ∃ last, Arena.Path LtHttpHeaderElement.next h.elements h.req.elementHead cells last
  ends : cells = [] → h.req.elementHead = none
  tail : ∀ front x, cells = front ++ [x] → h.req.elementTail = some x.1 ∧ x.1 ∉ front.map Prod.fst

/-- There are no more elements than blocks. -/
theorem LinkedElements.length_le {h : Head} {cells : List (Nat × LtHttpHeaderElement)}
    (hLinked : LinkedElements h cells) : cells.length ≤ h.elements.fresh := by
  obtain ⟨last, hPath⟩ := hLinked.path
  rcases List.eq_nil_or_concat cells with rfl | ⟨front, x, rfl⟩
  · exact Nat.zero_le _
  · rw [List.concat_eq_append] at hPath ⊢
    have hTail := (hLinked.tail front x (List.concat_eq_append ..)).2
    exact hPath.length_le_of_once (c := x.2) (g := fun e => { e with next := none }) hTail rfl

/-- The walk over linked elements comes to the tail, and appends two slices for each of
them. Its fuel is the number of elements, and more of it changes nothing. -/
theorem appendElements_path {elements : Arena LtHttpHeaderElement} {tail cur last : Option Nat} {first fuel : Nat}
    {junk : Nat → LtChain} {cells : List (Nat × LtHttpHeaderElement)} {chains : Arena LtChain} {bufs : List Iovec}
    (hPath : Arena.Path LtHttpHeaderElement.next elements cur cells last) (hCells : cells ≠ [])
    (hTail : ∀ front x, cells = front ++ [x] → tail = some x.1 ∧ x.1 ∉ front.map Prod.fst)
    (hFuel : cells.length ≤ fuel) (hNe : bufs ≠ []) (hRow : ChainRow junk chains first bufs) :
    ∃ chains', appendElements elements tail fuel cur chains = some chains' ∧
      ChainRow junk chains' first (bufs ++ elementIovecs (cells.map fun x => x.2.slices)) := by
  induction hPath generalizing fuel chains bufs with
  | nil => exact absurd rfl hCells
  | @cons i e cells last hCell hRest ih =>
      rw [List.length_cons] at hFuel
      obtain ⟨fuel, rfl⟩ := Nat.exists_eq_add_of_le' (by omega : 1 ≤ fuel)
      have hKeyRow := hRow.extend (e.key.widen 2) hNe
      have hKeyNe : bufs ++ [e.key.widen 2] ≠ [] := by simp
      simp only [appendElements, Option.bind_some, hCell]
      cases cells with
      | nil =>
          obtain ⟨hLast, -⟩ := hTail [] (i, e) rfl
          rw [if_pos hLast.symm]
          refine ⟨_, rfl, ?_⟩
          simpa [elementIovecs, LtHttpHeaderElement.slices] using hKeyRow.extend (e.value.widen 2).grow hKeyNe
      | cons y cells =>
          -- the tail stands behind this element
          have hOther : ¬ some i = tail := by
            obtain ⟨front, x, hEnd⟩ := (List.eq_nil_or_concat (y :: cells)).resolve_left (List.cons_ne_nil _ _)
            rw [List.concat_eq_append] at hEnd
            obtain ⟨hLast, hOnce⟩ := hTail ((i, e) :: front) x (by rw [hEnd, List.cons_append])
            rw [hLast, Option.some.injEq]
            rintro rfl
            exact hOnce List.mem_cons_self
          rw [if_neg hOther]
          obtain ⟨chains', hRun, hBuilt⟩ := @ih fuel _ _ (List.cons_ne_nil _ _)
            (fun front x hEnd => by
              obtain ⟨hLast, hOnce⟩ := hTail ((i, e) :: front) x (by rw [hEnd, List.cons_append])
              exact ⟨hLast, fun hMem => hOnce (List.mem_cons_of_mem _ hMem)⟩)
            (Nat.le_of_succ_le_succ hFuel) (by simp)
            (hKeyRow.extend (e.value.widen 2) hKeyNe)
          refine ⟨chains', hRun, ?_⟩
          simpa [elementIovecs, LtHttpHeaderElement.slices] using hBuilt

/-- The elements of a head that has just been read are linked, as their blocks stand in
a row. -/
theorem ElementList.linked {h : Head} {base : Nat} {fields : List (LtString × LtString)}
    (hList : ElementList h base fields) :
    ∃ cells, LinkedElements h cells ∧ cells.map (fun x => x.2.slices) = fields := by
  by_cases hEmpty : fields = []
  · subst hEmpty
    refine ⟨[], ⟨⟨h.req.elementHead, .nil _⟩, fun _ => hList.head, fun front x hEnd => ?_⟩, rfl⟩
    exact absurd hEnd.symm (by simp)
  · obtain ⟨cells, last, hPath, hIds, hSlices⟩ := hList.row.path (i := 0) (List.length_pos_iff.mpr hEmpty)
    rw [Nat.add_zero, Nat.sub_zero] at hIds
    have hCount := hSlices.length_eq
    refine ⟨cells, ⟨⟨last, ?_⟩, ?_, fun front x hEnd => ?_⟩, ?_⟩
    · rw [hList.head, if_neg hEmpty]
      exact hPath
    · rintro rfl
      exact absurd (List.length_eq_zero_iff.mp hCount) hEmpty
    · rw [hList.tail, if_neg hEmpty]
      subst hEnd
      have hNodup : ((front ++ [x]).map Prod.fst).Nodup := hIds ▸ List.nodup_range'
      rw [List.map_append, List.nodup_append] at hNodup
      refine ⟨?_, fun hMem => hNodup.2.2 x.1 hMem x.1 (by simp) rfl⟩
      have hAt := congrArg (fun ids => ids[front.length]?) hIds
      simp only [List.drop_zero, List.length_append, List.length_singleton] at hCount
      simp only [List.map_append, List.map_cons, List.map_nil, List.length_map, Nat.le_refl,
        List.getElem?_append_right, Nat.sub_self, List.getElem?_cons_zero, hCount] at hAt
      rw [hAt, List.getElem?_range' (by omega), hCount]
      congr 1
      omega
    · rw [List.drop_zero] at hSlices
      have hSame : List.Forall₂ (fun x y => x = y) fields (cells.map fun x => x.2.slices) := by
        refine List.forall₂_map_right_iff.mpr (hSlices.imp fun f cell hCell => ?_)
        exact Prod.ext hCell.1.symm hCell.2.symm
      rw [List.forall₂_eq_eq_eq] at hSame
      exact hSame.symm

/-- A finished chain: a row of nodes whose first one knows their number. -/
structure BuiltChain (junk : Nat → LtChain) (chains : Arena LtChain) (first : Nat)
    (bufs : List Iovec) : Prop extends ChainRow junk chains first bufs where
  length : ∃ c, chains.get? first = some c ∧ c.chainLen = bufs.length

theorem ChainRow.built {junk : Nat → LtChain} {chains : Arena LtChain} {first : Nat}
    {bufs : List Iovec} (h : ChainRow junk chains first bufs) (hNe : bufs ≠ []) :
    BuiltChain junk (setChainLen chains first) first bufs := by
  have hFresh := h.row.fresh
  have hPos := List.length_pos_iff.mpr hNe
  have hCell : ∀ i c, chains.get? i = some c →
      ∃ c', (setChainLen chains first).get? i = some c' ∧ c'.buf = c.buf ∧ c'.next = c.next := by
    intro i c hc
    by_cases hi : first = i
    · subst hi
      refine ⟨{ c with chainLen := (chains.fresh - first : Nat) }, ?_, rfl, rfl⟩
      rw [setChainLen, Arena.get?_modify_same, hc]
      rfl
    · exact ⟨c, by rw [setChainLen, Arena.get?_modify_other _ hi, hc], rfl, rfl⟩
  refine ⟨⟨h.junk_eq, ⟨?_, ?_⟩, ?_⟩, ?_⟩
  · rw [setChainLen, Arena.fresh_modify, hFresh]
  · intro i b hb
    obtain ⟨c, hc, hBuf, hNext⟩ := h.row.cell i b hb
    obtain ⟨c', hc', hBuf', hNext'⟩ := hCell _ c hc
    exact ⟨c', hc', hBuf'.trans hBuf, fun hi => hNext'.trans (hNext hi)⟩
  · intro c hNe' hc
    have hSame : (setChainLen chains first).fresh = chains.fresh := Arena.fresh_modify _ _ _
    rw [hSame] at hc ⊢
    obtain ⟨c₀, hc₀, -, -⟩ := h.row.cell (bufs.length - 1) _ (List.getElem?_eq_getElem (by omega))
    rw [show first + (bufs.length - 1) = chains.fresh - 1 by omega] at hc₀
    obtain ⟨c', hc', -, hNext⟩ := hCell _ c₀ hc₀
    rw [hc'] at hc
    cases hc
    exact hNext.trans (h.last c₀ hNe hc₀)
  · obtain ⟨c, hc, -, -⟩ := h.row.cell 0 _ (List.getElem?_eq_getElem hPos)
    refine ⟨{ c with chainLen := (chains.fresh - first : Nat) }, ?_, ?_⟩
    · rw [setChainLen, Arena.get?_modify_same, show first = first + 0 from rfl, hc]
      rfl
    · simp only
      rw [hFresh, Nat.add_sub_cancel_left]

/-- The request's chain holds the request line in three slices, then the elements. -/
theorem LinkedElements.requestChains {h : Head} {cells : List (Nat × LtHttpHeaderElement)}
    (chains : Arena LtChain) (hLinked : LinkedElements h cells) :
    ∃ chains', httpConstructRequestChains h chains = some (chains.fresh, chains') ∧
      BuiltChain chains.junk chains' chains.fresh (requestIovecs h.req (cells.map fun x => x.2.slices)) := by
  have hFirst := (chainRow_nil chains).append none (h.req.methodName.widen 1) rfl
  have hFresh₁ := hFirst.row.fresh
  have hSecond := hFirst.extend (h.req.uri.widen 1) (by simp)
  have hFresh₂ := hSecond.row.fresh
  have hThird := hSecond.extend (h.req.httpProtocol.widen 2) (by simp)
  simp only [List.length_append, List.length_nil, List.length_singleton] at hFresh₁ hFresh₂
  rw [show (appendChain chains none (h.req.methodName.widen 1)).fresh - 1 = chains.fresh by omega]
    at hFresh₂ hThird
  rw [show (appendChain (appendChain chains none (h.req.methodName.widen 1)) (some chains.fresh)
    (h.req.uri.widen 1)).fresh - 1 = chains.fresh + 1 by omega] at hThird
  unfold httpConstructRequestChains requestIovecs
  simp only
  obtain ⟨last, hPath⟩ := hLinked.path
  cases hHead : h.req.elementHead with
  | none =>
      rw [hHead] at hPath
      cases hPath
      simp only
      exact ⟨_, rfl, hThird.built (by simp)⟩
  | some element =>
      have hCells : cells ≠ [] := fun hNil => nomatch (hLinked.ends hNil).symm.trans hHead
      obtain ⟨chains', hRun, hRow⟩ := appendElements_path hPath hCells hLinked.tail hLinked.length_le (by simp) hThird
      rw [hHead] at hRun
      simp only
      rw [hRun]
      exact ⟨_, rfl, hRow.built (by simp)⟩

/-- The response's chain holds the status line, then the elements. -/
theorem LinkedElements.responseChains {h : Head} {cells : List (Nat × LtHttpHeaderElement)}
    (chains : Arena LtChain) (hLinked : LinkedElements h cells) (hCells : cells ≠ []) :
    ∃ chains', constructResponseChains h chains = some (chains.fresh, chains') ∧
      BuiltChain chains.junk chains' chains.fresh (responseIovecs h.req (cells.map fun x => x.2.slices)) := by
  have hFirst := (chainRow_nil chains).append none (h.req.requestLine.widen 2) rfl
  unfold constructResponseChains responseIovecs
  obtain ⟨last, hPath⟩ := hLinked.path
  obtain ⟨chains', hRun, hRow⟩ := appendElements_path hPath hCells hLinked.tail hLinked.length_le (by simp) hFirst
  simp only [hRun]
  exact ⟨_, rfl, hRow.built (by simp)⟩

theorem httpConstructRequestChains_built {h : Head} {base : Nat} {fields : List (LtString × LtString)}
    (chains : Arena LtChain) (hList : ElementList h base fields) :
    ∃ chains', httpConstructRequestChains h chains = some (chains.fresh, chains') ∧
      BuiltChain chains.junk chains' chains.fresh (requestIovecs h.req fields) := by
  obtain ⟨cells, hLinked, rfl⟩ := hList.linked
  exact hLinked.requestChains chains

theorem constructResponseChains_built {h : Head} {base : Nat} {fields : List (LtString × LtString)}
    (chains : Arena LtChain) (hList : ElementList h base fields) (hNe : fields ≠ []) :
    ∃ chains', constructResponseChains h chains = some (chains.fresh, chains') ∧
      BuiltChain chains.junk chains' chains.fresh (responseIovecs h.req fields) := by
  obtain ⟨cells, hLinked, rfl⟩ := hList.linked
  exact hLinked.responseChains chains fun hNil => hNe (congrArg _ hNil)

end Leactor
