import Mathlib.Tactic

/-! Blocks handed out one after another and named by their number. A fresh
block holds whatever the memory held before. -/

/-- The blocks handed out so far, and the stale content of the blocks to come. -/
structure Arena (α : Type*) where
  cells : List α
  junk : Nat → α

namespace Arena

variable {α : Type*}

def get? (a : Arena α) (i : Nat) : Option α := a.cells[i]?

def fresh (a : Arena α) : Nat := a.cells.length

def alloc (a : Arena α) : Nat × Arena α :=
  (a.fresh, { a with cells := a.cells ++ [a.junk a.fresh] })

def set (a : Arena α) (i : Nat) (x : α) : Arena α :=
  { a with cells := a.cells.set i x }

def modify (a : Arena α) (i : Nat) (g : α → α) : Arena α :=
  { a with cells := a.cells.modify i g }

@[simp] theorem fresh_set (a : Arena α) (i : Nat) (x : α) : (a.set i x).fresh = a.fresh := by
  simp [set, fresh]

@[simp] theorem fresh_modify (a : Arena α) (i : Nat) (g : α → α) : (a.modify i g).fresh = a.fresh := by
  simp [modify, fresh]

@[simp] theorem alloc_fst (a : Arena α) : a.alloc.1 = a.fresh := rfl

@[simp] theorem fresh_alloc (a : Arena α) : a.alloc.2.fresh = a.fresh + 1 := by
  simp [alloc, fresh]

@[simp] theorem junk_alloc (a : Arena α) : a.alloc.2.junk = a.junk := rfl

@[simp] theorem junk_set (a : Arena α) (i : Nat) (x : α) : (a.set i x).junk = a.junk := rfl

@[simp] theorem junk_modify (a : Arena α) (i : Nat) (g : α → α) : (a.modify i g).junk = a.junk := rfl

theorem get?_eq_none_iff {a : Arena α} {i : Nat} : a.get? i = none ↔ a.fresh ≤ i := by
  simp [get?, fresh]

theorem lt_fresh {a : Arena α} {i : Nat} {x : α} (h : a.get? i = some x) : i < a.fresh := by
  by_contra hNot
  rw [get?_eq_none_iff.mpr (not_lt.mp hNot)] at h
  cases h

/-- Arenas of one size have the same blocks. -/
theorem map_get?_congr {β : Type*} {a b : Arena α} (h : a.fresh = b.fresh) (i : Nat) (y : β) :
    (a.get? i).map (fun _ => y) = (b.get? i).map fun _ => y := by
  cases hHere : a.get? i with
  | none => rw [get?_eq_none_iff.mpr (h.symm.le.trans (get?_eq_none_iff.mp hHere))]
  | some x =>
      have hIn : i < b.cells.length := (lt_fresh hHere).trans_eq h
      rw [get?, List.getElem?_eq_getElem hIn]
      rfl

theorem get?_alloc_fresh (a : Arena α) : a.alloc.2.get? a.fresh = some (a.junk a.fresh) := by
  simp [alloc, get?, fresh]

theorem get?_alloc {a : Arena α} {i : Nat} (h : i < a.fresh) : a.alloc.2.get? i = a.get? i := by
  simp only [alloc, get?]
  exact List.getElem?_append_left h

theorem get?_set_same {a : Arena α} {i : Nat} (x : α) (h : i < a.fresh) :
    (a.set i x).get? i = some x := by
  simp only [set, get?]
  exact List.getElem?_set_self h

theorem get?_set_other {a : Arena α} {i j : Nat} (x : α) (h : i ≠ j) :
    (a.set i x).get? j = a.get? j := by
  simp only [set, get?]
  exact List.getElem?_set_ne h

theorem get?_modify_same (a : Arena α) (i : Nat) (g : α → α) :
    (a.modify i g).get? i = (a.get? i).map g := by
  simp [modify, get?]

theorem get?_modify_other {a : Arena α} {i j : Nat} (g : α → α) (h : i ≠ j) :
    (a.modify i g).get? j = a.get? j := by
  simp [modify, get?, h]

theorem get?_modify (a : Arena α) (i j : Nat) (g : α → α) :
    (a.modify i g).get? j = if i = j then (a.get? j).map g else a.get? j := by
  split_ifs with h
  · rw [← h, get?_modify_same]
  · exact get?_modify_other g h

theorem get?_alloc_eq (a : Arena α) (i : Nat) :
    a.alloc.2.get? i = if i = a.fresh then some (a.junk a.fresh) else a.get? i := by
  split_ifs with h
  · rw [h, get?_alloc_fresh]
  · rcases Nat.lt_or_ge i a.fresh with hi | hi
    · exact get?_alloc hi
    · rw [get?_eq_none_iff.mpr hi, get?_eq_none_iff, fresh_alloc]
      omega

/-- The arena with its blocks up to the `n`-th in view, those not handed out among them. -/
def reveal (a : Arena α) (n : Nat) : Arena α :=
  { a with cells := a.cells ++ (List.range' a.fresh (n - a.fresh)).map a.junk }

@[simp] theorem junk_reveal (a : Arena α) (n : Nat) : (a.reveal n).junk = a.junk := rfl

theorem fresh_reveal {a : Arena α} {n : Nat} (h : a.fresh ≤ n) : (a.reveal n).fresh = n := by
  rw [fresh, reveal, List.length_append, List.length_map, List.length_range']
  exact Nat.add_sub_of_le h

theorem get?_reveal (a : Arena α) (n i : Nat) :
    (a.reveal n).get? i = if i < a.fresh then a.get? i else if i < n then some (a.junk i) else none := by
  split_ifs with hOut hIn
  · exact List.getElem?_append_left hOut
  · have hStep : i - a.fresh < n - a.fresh := by omega
    rw [get?, reveal, List.getElem?_append_right (not_lt.mp hOut), List.getElem?_map,
      show i - a.cells.length = i - a.fresh from rfl, List.getElem?_range' hStep]
    simp only [Option.map_some, Nat.one_mul, Nat.add_sub_of_le (not_lt.mp hOut)]
  · rw [get?_eq_none_iff, fresh, reveal, List.length_append, List.length_map, List.length_range']
    change a.fresh + (n - a.fresh) ≤ i
    omega

theorem get?_reveal_of_some {a : Arena α} {i : Nat} {x : α} (n : Nat) (h : a.get? i = some x) :
    (a.reveal n).get? i = some x := by
  rw [get?_reveal, if_pos (lt_fresh h), h]

/-- Two more blocks. -/
theorem cells_eq_append_pair {a a' : Arena α} {x y : α}
    (h : ∀ i, a'.get? i = if i = a.fresh then some x else if i = a.fresh + 1 then some y else a.get? i) :
    a'.cells = a.cells ++ [x, y] := by
  refine List.ext_getElem? fun i => (h i).trans ?_
  rcases Nat.lt_or_ge i a.fresh with hi | hi
  · rw [if_neg (by omega), if_neg (by omega), List.getElem?_append_left hi]
    rfl
  · rw [List.getElem?_append_right hi]
    obtain ⟨n, rfl⟩ := Nat.exists_eq_add_of_le hi
    rw [show a.fresh + n - a.cells.length = n from Nat.add_sub_cancel_left _ n]
    match n with
    | 0 => simp
    | 1 => simp
    | n + 2 =>
        rw [if_neg (by omega), if_neg (by omega), get?_eq_none_iff.mpr hi]
        rfl

/-- The blocks from `base` on hold the list `xs` in order, each linked to the
next one. What the last link holds is left open. -/
structure Row {β : Type*} (next : α → Option Nat) (P : β → α → Prop) (a : Arena α) (base : Nat)
    (xs : List β) : Prop where
  fresh : a.fresh = base + xs.length
  cell : ∀ i x, xs[i]? = some x → ∃ c, a.get? (base + i) = some c ∧ P x c ∧
    (i + 1 < xs.length → next c = some (base + i + 1))

section Row

variable {β : Type*} {next : α → Option Nat} {P : β → α → Prop} {a a' : Arena α} {base : Nat} {xs : List β}

theorem Row.nil (a : Arena α) : Row next P a a.fresh ([] : List β) where
  fresh := rfl
  cell i x hx := by simp at hx

/-- A block appended behind the last one: the last one is linked to it, and
the others stay. -/
theorem Row.append {x : β} (h : Row next P a base xs) (hFresh : a'.fresh = a.fresh + 1)
    (hNew : ∃ c, a'.get? a.fresh = some c ∧ P x c)
    (hOld : ∀ i c, i + 1 < a.fresh → a.get? i = some c → a'.get? i = some c)
    (hLast : xs ≠ [] → ∀ c, a.get? (a.fresh - 1) = some c →
      ∃ c', a'.get? (a.fresh - 1) = some c' ∧ (∀ y, P y c → P y c') ∧ next c' = some a.fresh) :
    Row next P a' base (xs ++ [x]) := by
  have hLength : (xs ++ [x]).length = xs.length + 1 := by simp
  have hBase := h.fresh
  refine ⟨by rw [hFresh, hBase, hLength, Nat.add_assoc], ?_⟩
  intro i y hy
  rcases Nat.lt_trichotomy i xs.length with hi | rfl | hi
  · rw [List.getElem?_append_left hi] at hy
    obtain ⟨c, hc, hP, hNext⟩ := h.cell i y hy
    by_cases hEnd : i + 1 = xs.length
    · have hNe : xs ≠ [] := by
        rintro rfl
        exact absurd hi (by simp)
      have hHere : a.fresh - 1 = base + i := by omega
      rw [hHere] at hLast
      obtain ⟨c', hc', hKeep, hLink⟩ := hLast hNe c hc
      exact ⟨c', hc', hKeep y hP, fun _ => by rw [hLink, hBase]; congr 1; omega⟩
    · exact ⟨c, hOld _ c (by omega) hc, hP, fun _ => hNext (by omega)⟩
  · rw [List.getElem?_append_right (Nat.le_refl _), Nat.sub_self] at hy
    obtain rfl : x = y := by simpa using hy
    obtain ⟨c, hc, hP⟩ := hNew
    exact ⟨c, by rwa [← hBase], hP, fun hNot => by omega⟩
  · rw [List.getElem?_eq_none (by omega)] at hy
    exact nomatch hy

end Row

/-- The links from `cur` lead over the blocks `cells` to `last`. -/
inductive Path (next : α → Option Nat) (a : Arena α) : Option Nat → List (Nat × α) → Option Nat → Prop where
  | nil (last : Option Nat) : Path next a last [] last
  | cons {i : Nat} {c : α} {cells : List (Nat × α)} {last : Option Nat} (hCell : a.get? i = some c)
      (hRest : Path next a (next c) cells last) : Path next a (some i) ((i, c) :: cells) last

section Path

variable {next : α → Option Nat} {a : Arena α} {cur last : Option Nat} {cells cells' : List (Nat × α)}

theorem Path.eq_of_nil (h : Path next a cur [] last) : cur = last := by
  cases h
  rfl

theorem Path.eq_nil (h : Path next a none cells none) : cells = [] := by
  cases h
  rfl

/-- Two paths to NULL from one link are the same. -/
theorem Path.unique (h : Path next a cur cells none) (h' : Path next a cur cells' none) :
    cells = cells' := by
  induction cells generalizing cur cells' with
  | nil =>
      cases h
      cases h'
      rfl
  | cons x cells ih =>
      cases h with
      | cons hCell hRest =>
          cases h' with
          | cons hCell' hRest' =>
              rw [hCell] at hCell'
              cases hCell'
              rw [ih hRest hRest']

/-- Every block of a path begins a shorter path. -/
theorem Path.from_mem {x : Nat × α} (h : Path next a cur cells last) (hx : x ∈ cells) :
    ∃ cells', Path next a (some x.1) (x :: cells') last ∧ cells'.length < cells.length := by
  induction h with
  | nil => exact nomatch hx
  | @cons i c cells last hCell hRest ih =>
      rcases List.mem_cons.mp hx with rfl | hMem
      · exact ⟨cells, .cons hCell hRest, Nat.lt_succ_self _⟩
      · obtain ⟨cells', hPath, hLt⟩ := ih hMem
        exact ⟨cells', hPath, Nat.lt_succ_of_lt hLt⟩

theorem Path.get? {x : Nat × α} (h : Path next a cur cells last) (hx : x ∈ cells) :
    a.get? x.1 = some x.2 := by
  obtain ⟨i, c⟩ := x
  obtain ⟨cells', hPath, -⟩ := h.from_mem hx
  cases hPath with
  | cons hCell _ => exact hCell

/-- A path to NULL visits no block twice. -/
theorem Path.nodup (h : Path next a cur cells none) : (cells.map Prod.fst).Nodup := by
  induction cells generalizing cur with
  | nil => exact List.nodup_nil
  | cons x cells ih =>
      cases h with
      | @cons i c _ _ hCell hRest =>
          refine List.nodup_cons.mpr ⟨?_, ih hRest⟩
          intro hMem
          obtain ⟨⟨j, d⟩, hd, hj⟩ := List.mem_map.mp hMem
          simp only at hj
          subst hj
          -- the block begins both this path and a shorter one
          obtain ⟨cells', hPath, hLt⟩ := hRest.from_mem hd
          have hSame := congrArg List.length (hPath.unique (.cons hCell hRest))
          simp only [List.length_cons] at hSame
          omega

theorem Path.length_le (h : Path next a cur cells none) : cells.length ≤ a.fresh := by
  have hSub : cells.map Prod.fst ⊆ List.range a.fresh := by
    intro i hi
    obtain ⟨x, hx, rfl⟩ := List.mem_map.mp hi
    exact List.mem_range.mpr (lt_fresh (h.get? hx))
  have hLength := (h.nodup.subperm hSub).length_le
  simpa using hLength

theorem Path.append {mid : Option Nat} (h : Path next a cur cells mid) (h' : Path next a mid cells' last) :
    Path next a cur (cells ++ cells') last := by
  induction h with
  | nil => exact h'
  | cons hCell _ ih => exact .cons hCell (ih h')

theorem Path.split (h : Path next a cur (cells ++ cells') last) :
    ∃ mid, Path next a cur cells mid ∧ Path next a mid cells' last := by
  induction cells generalizing cur with
  | nil => exact ⟨cur, .nil _, h⟩
  | cons x cells ih =>
      cases h with
      | cons hCell hRest =>
          obtain ⟨mid, hLeft, hRight⟩ := ih hRest
          exact ⟨mid, .cons hCell hLeft, hRight⟩

/-- A change in a block off the path. -/
theorem Path.modify {i : Nat} (g : α → α) (h : Path next a cur cells last)
    (hOff : i ∉ cells.map Prod.fst) : Path next (a.modify i g) cur cells last := by
  induction h with
  | nil => exact .nil _
  | @cons j c cells last hCell hRest ih =>
      rw [List.map_cons, List.mem_cons, not_or] at hOff
      exact .cons (by rwa [get?_modify_other g hOff.1]) (ih hOff.2)

/-- A path whose last block stands nowhere else in it, wherever the last link leads. -/
theorem Path.length_le_of_once {front : List (Nat × α)} {t : Nat} {c : α} {g : α → α}
    (h : Path next a cur (front ++ [(t, c)]) last) (hOnce : t ∉ front.map Prod.fst) (hEnd : next (g c) = none) :
    (front ++ [(t, c)]).length ≤ a.fresh := by
  obtain ⟨mid, hLeft, hRight⟩ := h.split
  cases hRight with
  | cons hCell _ =>
      have hCut : Path next (a.modify t g) (some t) [(t, g c)] none := by
        refine .cons (by rw [get?_modify_same, hCell]; rfl) ?_
        rw [hEnd]
        exact .nil _
      have hLength := ((hLeft.modify g hOnce).append hCut).length_le
      rw [fresh_modify] at hLength
      simpa using hLength

/-- A block off the path is linked behind the last one. -/
theorem Path.link {front : List (Nat × α)} {t r : Nat} {c d : α} {g : α → α}
    (h : Path next a cur (front ++ [(t, c)]) none) (hOff : r ∉ (front ++ [(t, c)]).map Prod.fst)
    (hNew : a.get? r = some d) (hEnd : next d = none) (hLink : next (g c) = some r) :
    Path next (a.modify t g) cur (front ++ [(t, g c)] ++ [(r, d)]) none := by
  have hNodup := h.nodup
  rw [List.map_append, List.nodup_append] at hNodup
  have hOffFront : t ∉ front.map Prod.fst := fun hMem => hNodup.2.2 t hMem t (by simp) rfl
  have hNe : t ≠ r := fun hSame => hOff (by simp [hSame])
  obtain ⟨mid, hLeft, hRight⟩ := h.split
  cases hRight with
  | cons hCell _ =>
      rw [List.append_assoc]
      refine (hLeft.modify g hOffFront).append (.cons ?_ ?_)
      · rw [get?_modify_same, hCell]
        rfl
      · rw [hLink]
        refine .cons ((get?_modify_other g hNe).trans hNew) ?_
        rw [hEnd]
        exact .nil _

end Path

/-- A row, from one of its blocks on, is a path. -/
theorem Row.path {β : Type*} {next : α → Option Nat} {P : β → α → Prop} {a : Arena α} {base i : Nat} {xs : List β}
    (h : Row next P a base xs) (hi : i < xs.length) :
    ∃ cells last, Path next a (some (base + i)) cells last ∧
      cells.map Prod.fst = List.range' (base + i) (xs.length - i) ∧
      List.Forall₂ (fun x cell => P x cell.2) (xs.drop i) cells := by
  induction hn : xs.length - i generalizing i with
  | zero => omega
  | succ n ih =>
      obtain ⟨c, hc, hP, hNext⟩ := h.cell i _ (List.getElem?_eq_getElem hi)
      rw [List.drop_eq_getElem_cons hi, List.range'_succ]
      by_cases hLast : i + 1 = xs.length
      · obtain rfl : n = 0 := by omega
        refine ⟨[(base + i, c)], next c, .cons hc (.nil _), rfl, .cons hP ?_⟩
        rw [List.drop_of_length_le (by omega)]
        exact .nil
      · obtain ⟨cells, last, hPath, hIds, hRest⟩ := ih (i := i + 1) (by omega) (by omega)
        refine ⟨(base + i, c) :: cells, last, .cons hc ?_, ?_, .cons hP hRest⟩
        · rw [hNext (by omega)]
          exact hPath
        · rw [List.map_cons, hIds]
          rfl

end Arena
