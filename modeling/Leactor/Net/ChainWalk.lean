import Leactor.Net.SendChains

/-! The chains of both builders as `send_chains` walks them. -/
namespace Leactor

/-- The slice starts at the data of the string, and is `n` bytes longer if the sum is
the size of a slice. -/
def LtString.Spans (s : LtString) (n : Nat) (v : Iovec) : Prop :=
  v.base = s.data ∧ (0 ≤ s.length + n → s.length + n < 2 ^ 31 → (v.len : Int) = s.length + n)

/-- The ranges of the headers: a key and a value each, with two more bytes behind the last value. -/
def headerSpans : List (LtString × LtString) → List (LtString × Nat)
  | [] => []
  | [f] => [(f.1, 2), (f.2, 4)]
  | f :: g :: fields => (f.1, 2) :: (f.2, 2) :: headerSpans (g :: fields)

def requestSpans (r : RequestT) (fields : List (LtString × LtString)) : List (LtString × Nat) :=
  (r.methodName, 1) :: (r.uri, 1) :: (r.httpProtocol, 2) :: headerSpans fields

def responseSpans (r : RequestT) (fields : List (LtString × LtString)) : List (LtString × Nat) :=
  (r.requestLine, 2) :: headerSpans fields

/-- A chain as `send_chains` walks it: `n` distinct nodes, whose number the first one
knows, with slices of these ranges. -/
structure ChainVisits (chains : Arena LtChain) (first n : Nat) (spans : List (LtString × Nat)) : Prop where
  count : ∃ c, chains.get? first = some c ∧ c.chainLen = n
  spans_length : spans.length = n
  nodes : ∃ nodes last, Arena.Path LtChain.next chains (some first) nodes last ∧ (nodes.map Prod.fst).Nodup ∧
    List.Forall₂ (fun span node => span.1.Spans span.2 node.2.buf) spans nodes ∧
    ∃ link, outVec chains first = some (nodes.map fun node => node.2.buf, link)

theorem LtString.spans_widen (s : LtString) (n : Nat) : s.Spans n (s.widen n) := by
  refine ⟨rfl, fun hLow hHigh => ?_⟩
  simp only [widen, toSize]
  rw [wrap32_of_bounds (by omega) hHigh]
  omega

/-- The last value: two bytes in the `int` sum, and two more behind it. -/
theorem LtString.spans_grow (s : LtString) : s.Spans 4 (s.widen 2).grow := by
  refine ⟨rfl, fun hLow hHigh => ?_⟩
  simp only [widen, Iovec.grow, toSize]
  rw [wrap32_of_bounds (by omega) (by omega)]
  omega

theorem elementIovecs_spans (fields : List (LtString × LtString)) :
    List.Forall₂ (fun span v => span.1.Spans span.2 v) (headerSpans fields) (elementIovecs fields) := by
  induction fields with
  | nil => exact .nil
  | cons f fields ih =>
      cases fields with
      | nil => exact .cons (f.1.spans_widen 2) (.cons f.2.spans_grow .nil)
      | cons g fields => exact .cons (f.1.spans_widen 2) (.cons (f.2.spans_widen 2) ih)

theorem length_headerSpans (fields : List (LtString × LtString)) :
    (headerSpans fields).length = 2 * fields.length := by
  induction fields with
  | nil => rfl
  | cons f fields ih =>
      cases fields with
      | nil => rfl
      | cons g fields =>
          simp only [headerSpans, List.length_cons] at ih ⊢
          omega

theorem requestIovecs_spans (r : RequestT) (fields : List (LtString × LtString)) :
    List.Forall₂ (fun span v => span.1.Spans span.2 v) (requestSpans r fields) (requestIovecs r fields) :=
  .cons (r.methodName.spans_widen 1) (.cons (r.uri.spans_widen 1)
    (.cons (r.httpProtocol.spans_widen 2) (elementIovecs_spans fields)))

theorem responseIovecs_spans (r : RequestT) (fields : List (LtString × LtString)) :
    List.Forall₂ (fun span v => span.1.Spans span.2 v) (responseSpans r fields) (responseIovecs r fields) :=
  .cons (r.requestLine.spans_widen 2) (elementIovecs_spans fields)

/-- A finished chain is walked. -/
theorem BuiltChain.walked {junk : Nat → LtChain} {chains : Arena LtChain} {first : Nat} {bufs : List Iovec}
    {spans : List (LtString × Nat)} (h : BuiltChain junk chains first bufs) (hNe : bufs ≠ [])
    (hSpans : List.Forall₂ (fun span v => span.1.Spans span.2 v) spans bufs) :
    ChainVisits chains first spans.length spans := by
  have hLength := hSpans.length_eq
  refine ⟨hLength ▸ h.length, rfl, ?_⟩
  obtain ⟨nodes, last, hPath, hIds, hBufs⟩ := h.row.path (i := 0) (List.length_pos_iff.mpr hNe)
  rw [Nat.add_zero] at hPath
  have hSame : nodes.map (fun node => node.2.buf) = bufs := by
    have hEach : List.Forall₂ (fun x y => x = y) bufs (nodes.map fun node => node.2.buf) :=
      List.forall₂_map_right_iff.mpr (hBufs.imp fun _ _ hBuf => hBuf.symm)
    rw [List.forall₂_eq_eq_eq] at hEach
    exact hEach.symm
  refine ⟨nodes, last, hPath, hIds ▸ List.nodup_range', ?_, _, hSame ▸ h.outVec hNe⟩
  rw [← hSame] at hSpans
  exact List.forall₂_map_right_iff.mp hSpans

/-- Both builders make the chain that `send_chains` walks, with the same ranges for the
headers. In front of them stand three ranges in a request, and one in a response. -/
theorem chains_walked {h : Head} {cells : List (Nat × LtHttpHeaderElement)} (hLinked : LinkedElements h cells)
    (chains : Arena LtChain) :
    (∃ chains', httpConstructRequestChains h chains = some (chains.fresh, chains') ∧
      ChainVisits chains' chains.fresh (3 + 2 * cells.length)
        (requestSpans h.req (cells.map fun x => x.2.slices))) ∧
    (cells ≠ [] → ∃ chains', constructResponseChains h chains = some (chains.fresh, chains') ∧
      ChainVisits chains' chains.fresh (1 + 2 * cells.length)
        (responseSpans h.req (cells.map fun x => x.2.slices))) := by
  have hCount := length_headerSpans (cells.map fun x => x.2.slices)
  rw [List.length_map] at hCount
  constructor
  · obtain ⟨chains', hBuild, hChain⟩ := hLinked.requestChains chains
    have hWalked := hChain.walked (by simp [requestIovecs]) (requestIovecs_spans _ _)
    have hLength : (requestSpans h.req (cells.map fun x => x.2.slices)).length = 3 + 2 * cells.length := by
      simp only [requestSpans, List.length_cons, hCount]
      omega
    rw [hLength] at hWalked
    exact ⟨chains', hBuild, hWalked⟩
  · intro hCells
    obtain ⟨chains', hBuild, hChain⟩ := hLinked.responseChains chains hCells
    have hWalked := hChain.walked (by simp [responseIovecs]) (responseIovecs_spans _ _)
    have hLength : (responseSpans h.req (cells.map fun x => x.2.slices)).length = 1 + 2 * cells.length := by
      simp only [responseSpans, List.length_cons, hCount]
      omega
    rw [hLength] at hWalked
    exact ⟨chains', hBuild, hWalked⟩

/-- An element whose key stands at `data`, with its value behind it. -/
def elementAt (data : Nat) (next : Option Nat) : LtHttpHeaderElement :=
  ⟨0, 0, ⟨4, data⟩, ⟨5, data + 6⟩, ⟨0, 0⟩, next⟩

def twoElements : Head where
  req := { elementHead := some 1, elementTail := some 0 }
  buf := ⟨0, 0, 0, 0⟩
  mem := fun _ => 0
  elements := ⟨[elementAt 100 (some 7), elementAt 200 (some 0)], fun _ => elementAt 0 none⟩

theorem twoElements_linked :
    LinkedElements twoElements [(1, elementAt 200 (some 0)), (0, elementAt 100 (some 7))] where
  path := ⟨some 7, .cons rfl (.cons rfl (.nil _))⟩
  ends := nofun
  tail front x hEnd := by
    obtain ⟨rfl, hLast⟩ := List.append_inj' (show [_] ++ [_] = front ++ [x] from hEnd) rfl
    cases hLast
    exact ⟨rfl, by decide⟩

theorem chains_walked_twoElements :
    (∃ chains', httpConstructRequestChains twoElements ⟨[], fun _ => ⟨⟨0, 0⟩, none, 0⟩⟩ = some (0, chains') ∧
      ChainVisits chains' 0 7 (requestSpans twoElements.req [(⟨4, 200⟩, ⟨5, 206⟩), (⟨4, 100⟩, ⟨5, 106⟩)])) ∧
    ∃ chains', constructResponseChains twoElements ⟨[], fun _ => ⟨⟨0, 0⟩, none, 0⟩⟩ = some (0, chains') ∧
      ChainVisits chains' 0 5 (responseSpans twoElements.req [(⟨4, 200⟩, ⟨5, 206⟩), (⟨4, 100⟩, ⟨5, 106⟩)]) :=
  ⟨(chains_walked twoElements_linked _).1, (chains_walked twoElements_linked _).2 (List.cons_ne_nil _ _)⟩

end Leactor
