import Leactor.Basic
import Leactor.Library.BinHeap
import Leactor.Library.Run

/-! The timer heap of lea_heap.c. Events are named by numbers, and `ev` is the
memory they lie in. -/
namespace Leactor

open BinHeap

/-- A `long long`, reduced to 64-bit two's complement. -/
def wrap64 (x : Int) : Int := x.bmod (2 ^ 64)

structure LtTime where
  sec : Int := 0
  nsec : Int := 0
  deriving DecidableEq, Repr

def LtTime.total (t : LtTime) : Int := t.sec * 1000000000 + t.nsec

def ltTimeASubB (a b : LtTime) : Int :=
  wrap64 (a.sec * 1000000000 + a.nsec - b.sec * 1000000000 - b.nsec)

theorem wrap64_of_bounds {x : Int} (hLow : -2 ^ 63 ≤ x) (hHigh : x < 2 ^ 63) : wrap64 x = x := by
  unfold wrap64
  rw [Int.bmod_eq_of_le] <;> omega

theorem ltTimeASubB_total {a b : LtTime} (hLow : b.total ≤ a.total) (hHigh : a.total - b.total < 2 ^ 63) :
    ltTimeASubB a b = a.total - b.total := by
  unfold LtTime.total at hLow hHigh ⊢
  rw [ltTimeASubB, wrap64_of_bounds (by omega) (by omega)]
  omega

/-- The fields of `event_t` that the loop and the heap work on. -/
structure EventT where
  flag : Nat := 0
  minHeapIdx : Int := 0
  endtime : LtTime := {}
  deleted : Nat := 0
  nextActiveEv : Option Nat := none

/-- `min_heap_t` with the events it points to. -/
structure Timers where
  p : Nat → Nat
  n : Nat
  a : Nat
  ev : Nat → EventT

namespace Timers

def time (s : Timers) (e : Nat) : Int := (s.ev e).endtime.total

def keys (s : Timers) (i : Nat) : Int := s.time (s.p i)

def Has (s : Timers) (e : Nat) : Prop := ∃ i, i < s.n ∧ s.p i = e

def setIdx (s : Timers) (e : Nat) (idx : Int) : Timers :=
  { s with ev := Function.update s.ev e { s.ev e with minHeapIdx := idx } }

/-- `s->p[hole_index] = e; s->p[hole_index]->min_heap_idx = hole_index;` -/
def put (s : Timers) (hole e : Nat) : Timers :=
  { s with p := Function.update s.p hole e }.setIdx e hole

/-- `min_heap_elem_greater`: the difference taken as a truth value. -/
def elemGreater (s : Timers) (a b : Nat) : Prop := ltTimeASubB (s.ev a).endtime (s.ev b).endtime ≠ 0

instance (s : Timers) (a b : Nat) : Decidable (s.elemGreater a b) := inferInstanceAs (Decidable (_ ≠ _))

/-- The child that the loop of `min_heap_shift_down_` looks at. -/
def minChild (s : Timers) (hole : Nat) : Nat :=
  if 2 * (hole + 1) = s.n ∨ s.elemGreater (s.p (2 * (hole + 1))) (s.p (2 * (hole + 1) - 1)) then
    2 * (hole + 1) - 1
  else 2 * (hole + 1)

theorem minChild_eq (s : Timers) (hole : Nat) :
    s.minChild hole = 2 * hole + 1 ∨ s.minChild hole = 2 * (hole + 1) := by
  unfold minChild
  split_ifs <;> omega

theorem minChild_child (s : Timers) (hole : Nat) : 0 < s.minChild hole ∧ parent (s.minChild hole) = hole :=
  parent_eq_iff.mpr (s.minChild_eq hole)

theorem minChild_lt {s : Timers} {hole : Nat} (h : 2 * (hole + 1) ≤ s.n) : s.minChild hole < s.n := by
  unfold minChild
  split_ifs with hLeft <;> omega

def minHeapShiftUp (s : Timers) (hole e : Nat) : Timers :=
  if hole ≠ 0 ∧ s.elemGreater (s.p (parent hole)) e then
    minHeapShiftUp (s.put hole (s.p (parent hole))) (parent hole) e
  else s.put hole e
termination_by hole
decreasing_by exact parent_lt (by omega)

def minHeapShiftUpUnconditional (s : Timers) (hole e : Nat) : Timers :=
  minHeapShiftUp (s.put hole (s.p (parent hole))) (parent hole) e

def minHeapShiftDown (s : Timers) (hole e : Nat) : Timers :=
  if 2 * (hole + 1) ≤ s.n ∧ s.elemGreater e (s.p (s.minChild hole)) then
    minHeapShiftDown (s.put hole (s.p (s.minChild hole))) (s.minChild hole) e
  else s.put hole e
termination_by s.n - hole
decreasing_by
  have hEq := s.minChild_eq hole
  simp only [put, setIdx]
  omega

def minHeapConstructor (p : Nat → Nat) (ev : Nat → EventT) : Timers := ⟨p, 0, 0, ev⟩

def minHeapElemInit (s : Timers) (e : Nat) : Timers := s.setIdx e (-1)

/-- `min_heap_reserve_`, where `realloc` succeeds or fails. -/
def minHeapReserve (s : Timers) (n : Nat) (realloc : Bool) : Int × Timers :=
  if s.a < n then
    if realloc then (0, { s with a := max (if s.a = 0 then 8 else s.a * 2) n })
    else (-1, s)
  else (0, s)

def minHeapPush (s : Timers) (e : Nat) (realloc : Bool) : Int × Timers :=
  let (res, s) := s.minHeapReserve (s.n + 1) realloc
  if res ≠ 0 then (-1, s)
  else (0, minHeapShiftUp { s with n := s.n + 1 } s.n e)

def minHeapPop (s : Timers) : Option Nat × Timers :=
  if s.n = 0 then (none, s)
  else
    let e := s.p 0
    let s := { s with n := s.n - 1 }
    (some e, (minHeapShiftDown s 0 (s.p s.n)).setIdx e (-1))

def minHeapErase (s : Timers) (e : Nat) : Timers :=
  let s := { s with n := s.n - 1 }
  let last := s.p s.n
  let idx := (s.ev e).minHeapIdx
  let s :=
    if 0 < idx ∧ s.elemGreater (s.p (parent idx.toNat)) last then
      minHeapShiftUpUnconditional s idx.toNat last
    else minHeapShiftDown s idx.toNat last
  s.setIdx e (-1)

@[simp] theorem n_setIdx (s : Timers) (e : Nat) (idx : Int) : (s.setIdx e idx).n = s.n := rfl

@[simp] theorem p_setIdx (s : Timers) (e : Nat) (idx : Int) : (s.setIdx e idx).p = s.p := rfl

@[simp] theorem n_put (s : Timers) (hole e : Nat) : (s.put hole e).n = s.n := rfl

@[simp] theorem p_put (s : Timers) (hole e : Nat) : (s.put hole e).p = Function.update s.p hole e := rfl

theorem ev_setIdx_same (s : Timers) (e : Nat) (idx : Int) :
    (s.setIdx e idx).ev e = { s.ev e with minHeapIdx := idx } := by
  simp [setIdx]

theorem ev_setIdx_other (s : Timers) {e x : Nat} (idx : Int) (h : x ≠ e) : (s.setIdx e idx).ev x = s.ev x := by
  simp [setIdx, h]

/-- The two heaps agree on the events, up to the field `min_heap_idx`. -/
def SameEvents (s s' : Timers) : Prop :=
  ∀ x, s'.ev x = { s.ev x with minHeapIdx := (s'.ev x).minHeapIdx }

theorem SameEvents.refl (s : Timers) : s.SameEvents s := fun _ => rfl

theorem SameEvents.trans {s s' s'' : Timers} (h : s.SameEvents s') (h' : s'.SameEvents s'') :
    s.SameEvents s'' := by
  intro x
  rw [h' x, h x]

theorem sameEvents_setIdx (s : Timers) (e : Nat) (idx : Int) : s.SameEvents (s.setIdx e idx) := by
  intro x
  by_cases hx : x = e
  · rw [hx, ev_setIdx_same]
  · rw [ev_setIdx_other s idx hx]

theorem sameEvents_put (s : Timers) (hole e : Nat) : s.SameEvents (s.put hole e) :=
  sameEvents_setIdx _ e hole

theorem SameEvents.endtime {s s' : Timers} (h : s.SameEvents s') (x : Nat) :
    (s'.ev x).endtime = (s.ev x).endtime := by
  rw [h x]

theorem SameEvents.time {s s' : Timers} (h : s.SameEvents s') (x : Nat) : s'.time x = s.time x := by
  rw [Timers.time, h x]
  rfl

theorem SameEvents.elemGreater {s s' : Timers} (h : s.SameEvents s') (a b : Nat) :
    s'.elemGreater a b ↔ s.elemGreater a b := by
  rw [Timers.elemGreater, h a, h b]
  rfl

theorem keys_put (s : Timers) (hole e : Nat) :
    (s.put hole e).keys = Function.update s.keys hole (s.time e) := by
  funext i
  rw [keys, (sameEvents_put s hole e).time, p_put]
  by_cases hi : i = hole
  · rw [hi, Function.update_self, Function.update_self]
  · rw [Function.update_of_ne hi, Function.update_of_ne hi]
    rfl

theorem sameEvents_minHeapShiftUp (s : Timers) (hole e : Nat) : s.SameEvents (s.minHeapShiftUp hole e) := by
  induction s, hole using minHeapShiftUp.induct (e := e) with
  | case1 s hole hGreater ih =>
      rw [minHeapShiftUp, if_pos hGreater]
      exact (sameEvents_put _ _ _).trans ih
  | case2 s hole hGreater =>
      rw [minHeapShiftUp, if_neg hGreater]
      exact sameEvents_put _ _ _

theorem sameEvents_minHeapShiftDown (s : Timers) (hole e : Nat) : s.SameEvents (s.minHeapShiftDown hole e) := by
  induction s, hole using minHeapShiftDown.induct (e := e) with
  | case1 s hole hGreater ih =>
      rw [minHeapShiftDown, if_pos hGreater]
      exact (sameEvents_put _ _ _).trans ih
  | case2 s hole hGreater =>
      rw [minHeapShiftDown, if_neg hGreater]
      exact sameEvents_put _ _ _

/-- A removal writes no other field of any event, whatever the heap holds. -/
theorem sameEvents_minHeapErase (s : Timers) (e : Nat) : s.SameEvents (s.minHeapErase e) := by
  have hStart : s.SameEvents { s with n := s.n - 1 } := .refl s
  rw [minHeapErase]
  refine hStart.trans (SameEvents.trans ?_ (sameEvents_setIdx _ _ _))
  split_ifs
  · exact (sameEvents_put _ _ _).trans (sameEvents_minHeapShiftUp _ _ _)
  · exact sameEvents_minHeapShiftDown _ _ _

section Slots

def Indexed (s : Timers) : Prop := ∀ i, i < s.n → (s.ev (s.p i)).minHeapIdx = i

/-- The events off the hole know their positions, and `e` is not one of them. -/
structure Parted (s : Timers) (hole e : Nat) : Prop where
  idx : ∀ i, i < s.n → i ≠ hole → (s.ev (s.p i)).minHeapIdx = i
  apart : ∀ i, i < s.n → i ≠ hole → s.p i ≠ e

def Beside (s : Timers) (hole x : Nat) : Prop := ∃ i, i < s.n ∧ i ≠ hole ∧ s.p i = x

/-- What a sift of `e` from a hole leaves behind. -/
structure Sifted (s : Timers) (hole e : Nat) (s' : Timers) : Prop where
  n : s'.n = s.n
  same : s.SameEvents s'
  indexed : s'.Indexed
  has : ∀ x, s'.Has x ↔ x = e ∨ s.Beside hole x
  off : ∀ x, ¬ s'.Has x → s'.ev x = s.ev x

theorem Indexed.inj {s : Timers} (h : s.Indexed) {i j : Nat} (hi : i < s.n) (hj : j < s.n)
    (hSame : s.p i = s.p j) : i = j := by
  have hIdx := h i hi
  rw [hSame, h j hj] at hIdx
  exact_mod_cast hIdx.symm

variable {s : Timers} {hole e : Nat}

theorem Parted.inj (h : s.Parted hole e) {i j : Nat} (hi : i < s.n) (hj : j < s.n) (hiHole : i ≠ hole)
    (hjHole : j ≠ hole) (hSame : s.p i = s.p j) : i = j := by
  have hIdx := h.idx i hi hiHole
  rw [hSame, h.idx j hj hjHole] at hIdx
  exact_mod_cast hIdx.symm

/-- The event at another position moves into the hole. -/
theorem Parted.move (h : s.Parted hole e) {j : Nat} (hj : j < s.n) (hNe : j ≠ hole) :
    (s.put hole (s.p j)).Parted j e where
  idx i hi hij := by
    by_cases hHole : i = hole
    · rw [hHole, p_put, Function.update_self, put, ev_setIdx_same]
    · have hOther : s.p i ≠ s.p j := fun hSame => hij (h.inj hi hj hHole hNe hSame)
      rw [p_put, Function.update_of_ne hHole, put, ev_setIdx_other _ _ hOther]
      exact h.idx i hi hHole
  apart i hi hij := by
    rw [p_put]
    by_cases hHole : i = hole
    · rw [hHole, Function.update_self]
      exact h.apart j hj hNe
    · rw [Function.update_of_ne hHole]
      exact h.apart i hi hHole

theorem beside_move {j : Nat} (hHole : hole < s.n) (hj : j < s.n) (hNe : j ≠ hole) (x : Nat) :
    (s.put hole (s.p j)).Beside j x ↔ s.Beside hole x := by
  constructor
  · rintro ⟨i, hi, hij, rfl⟩
    by_cases hHere : i = hole
    · exact ⟨j, hj, hNe, by rw [hHere, p_put, Function.update_self]⟩
    · exact ⟨i, hi, hHere, by rw [p_put, Function.update_of_ne hHere]⟩
  · rintro ⟨i, hi, hiHole, rfl⟩
    by_cases hij : i = j
    · exact ⟨hole, hHole, hNe.symm, by rw [hij, p_put, Function.update_self]⟩
    · exact ⟨i, hi, hij, by rw [p_put, Function.update_of_ne hiHole]⟩

/-- A move and a sift from the new hole. -/
theorem Sifted.after_move {s' : Timers} {j : Nat} (hHole : hole < s.n) (hj : j < s.n) (hNe : j ≠ hole)
    (h : (s.put hole (s.p j)).Sifted j e s') : s.Sifted hole e s' where
  n := h.n
  same := (sameEvents_put s hole (s.p j)).trans h.same
  indexed := h.indexed
  has x := (h.has x).trans (or_congr Iff.rfl (beside_move hHole hj hNe x))
  off x hx := by
    have hOther : x ≠ s.p j := by
      rintro rfl
      exact hx ((h.has _).mpr (Or.inr ⟨hole, hHole, hNe.symm, by rw [p_put, Function.update_self]⟩))
    rw [h.off x hx, put, ev_setIdx_other _ _ hOther]

/-- The event is put into the hole. -/
theorem Parted.sifted_put (h : s.Parted hole e) (hHole : hole < s.n) : s.Sifted hole e (s.put hole e) where
  n := rfl
  same := sameEvents_put s hole e
  indexed i hi := by
    by_cases hHere : i = hole
    · rw [hHere, p_put, Function.update_self, put, ev_setIdx_same]
    · rw [p_put, Function.update_of_ne hHere, put, ev_setIdx_other _ _ (h.apart i hi hHere)]
      exact h.idx i hi hHere
  has x := by
    constructor
    · rintro ⟨i, hi, rfl⟩
      by_cases hHere : i = hole
      · exact Or.inl (by rw [hHere, p_put, Function.update_self])
      · exact Or.inr ⟨i, hi, hHere, by rw [p_put, Function.update_of_ne hHere]⟩
    · rintro (rfl | ⟨i, hi, hNe, rfl⟩)
      · exact ⟨hole, hHole, by rw [p_put, Function.update_self]⟩
      · exact ⟨i, hi, by rw [p_put, Function.update_of_ne hNe]⟩
  off x hx := by
    have hOther : x ≠ e := by
      rintro rfl
      exact hx ⟨hole, hHole, by rw [p_put, Function.update_self]⟩
    rw [put, ev_setIdx_other _ _ hOther]

theorem Parted.sifted_up (h : s.Parted hole e) (hHole : hole < s.n) :
    s.Sifted hole e (s.minHeapShiftUp hole e) := by
  induction s, hole using minHeapShiftUp.induct (e := e) with
  | case1 s hole hGreater ih =>
      have hLt := parent_lt (by omega : 0 < hole)
      rw [minHeapShiftUp, if_pos hGreater]
      exact Sifted.after_move hHole (by omega) (by omega) (ih (h.move (by omega) (by omega)) (by
        rw [n_put]
        omega))
  | case2 s hole hGreater =>
      rw [minHeapShiftUp, if_neg hGreater]
      exact h.sifted_put hHole

theorem Parted.sifted_down (h : s.Parted hole e) (hHole : hole < s.n) :
    s.Sifted hole e (s.minHeapShiftDown hole e) := by
  induction s, hole using minHeapShiftDown.induct (e := e) with
  | case1 s hole hGreater ih =>
      have hEq := s.minChild_eq hole
      have hLt := minChild_lt hGreater.1
      rw [minHeapShiftDown, if_pos hGreater]
      exact Sifted.after_move hHole hLt (by omega) (ih (h.move hLt (by omega)) hLt)
  | case2 s hole hGreater =>
      rw [minHeapShiftDown, if_neg hGreater]
      exact h.sifted_put hHole

end Slots

section Order

/-- The comparison of two events as the heap needs it. -/
def Agrees (s : Timers) (a b : Nat) : Prop := s.elemGreater a b ↔ s.time b < s.time a

instance (s : Timers) (a b : Nat) : Decidable (s.Agrees a b) := inferInstanceAs (Decidable (_ ↔ _))

/-- All comparisons agree on the way of `e` up from a hole. -/
inductive UpFits (s : Timers) (e : Nat) : Nat → Prop where
  | root : UpFits s e 0
  | stays {hole : Nat} (hAgrees : s.Agrees (s.p (parent hole)) e)
      (hNot : ¬ s.elemGreater (s.p (parent hole)) e) : UpFits s e hole
  | moves {hole : Nat} (hPos : 0 < hole) (hAgrees : s.Agrees (s.p (parent hole)) e)
      (hGreater : s.elemGreater (s.p (parent hole)) e) (hRest : UpFits s e (parent hole)) : UpFits s e hole

/-- The comparison of the two children agrees, if there are two. -/
def ChildFits (s : Timers) (hole : Nat) : Prop :=
  2 * (hole + 1) = s.n ∨ s.Agrees (s.p (2 * (hole + 1))) (s.p (2 * (hole + 1) - 1))

/-- All comparisons agree on the way of `e` down from a hole. -/
inductive DownFits (s : Timers) (e : Nat) : Nat → Prop where
  | leaf {hole : Nat} (hLeaf : s.n < 2 * (hole + 1)) : DownFits s e hole
  | stays {hole : Nat} (hChild : s.ChildFits hole) (hAgrees : s.Agrees e (s.p (s.minChild hole)))
      (hNot : ¬ s.elemGreater e (s.p (s.minChild hole))) : DownFits s e hole
  | moves {hole : Nat} (hNode : 2 * (hole + 1) ≤ s.n) (hChild : s.ChildFits hole)
      (hAgrees : s.Agrees e (s.p (s.minChild hole))) (hGreater : s.elemGreater e (s.p (s.minChild hole)))
      (hRest : DownFits s e (s.minChild hole)) : DownFits s e hole

variable {s s' : Timers} {hole e : Nat}

theorem SameEvents.agrees (h : s.SameEvents s') (a b : Nat) : s'.Agrees a b ↔ s.Agrees a b := by
  rw [Agrees, Agrees, h.elemGreater, h.time, h.time]

/-- The way up looks only at positions above the hole. -/
theorem UpFits.frame (h : s.UpFits e hole) (hSame : s.SameEvents s') (hp : ∀ i, i < hole → s'.p i = s.p i) :
    s'.UpFits e hole := by
  induction h with
  | root => exact .root
  | @stays hole hAgrees hNot =>
      rcases Nat.eq_zero_or_pos hole with rfl | hPos
      · exact .root
      · have hParent := hp _ (parent_lt hPos)
        rw [← hSame.agrees, ← hParent] at hAgrees
        rw [← hSame.elemGreater, ← hParent] at hNot
        exact .stays hAgrees hNot
  | moves hPos hAgrees hGreater _ ih =>
      have hLt := parent_lt hPos
      have hParent := hp _ hLt
      rw [← hSame.agrees, ← hParent] at hAgrees
      rw [← hSame.elemGreater, ← hParent] at hGreater
      exact .moves hPos hAgrees hGreater (ih fun i hi => hp i (hi.trans hLt))

theorem minChild_frame (hSame : s.SameEvents s') (hn : s'.n = s.n) (hp : ∀ i, hole < i → s'.p i = s.p i) :
    s'.minChild hole = s.minChild hole := by
  simp only [minChild, hn, hSame.elemGreater, hp _ (show hole < 2 * (hole + 1) by omega),
    hp _ (show hole < 2 * (hole + 1) - 1 by omega)]

theorem ChildFits.frame (h : s.ChildFits hole) (hSame : s.SameEvents s') (hn : s'.n = s.n)
    (hp : ∀ i, hole < i → s'.p i = s.p i) : s'.ChildFits hole := by
  rw [ChildFits, hn, hSame.agrees, hp _ (by omega), hp _ (by omega)]
  exact h

/-- The way down looks only at positions below the hole. -/
theorem DownFits.frame (h : s.DownFits e hole) (hSame : s.SameEvents s') (hn : s'.n = s.n)
    (hp : ∀ i, hole < i → s'.p i = s.p i) : s'.DownFits e hole := by
  induction h with
  | leaf hLeaf => exact .leaf (by rwa [hn])
  | @stays hole hChild hAgrees hNot =>
      have hEq := s.minChild_eq hole
      have hMin := minChild_frame hSame hn hp
      have hSlot := hp (s.minChild hole) (by omega)
      rw [← hSame.agrees, ← hSlot, ← hMin] at hAgrees
      rw [← hSame.elemGreater, ← hSlot, ← hMin] at hNot
      exact .stays (hChild.frame hSame hn hp) hAgrees hNot
  | @moves hole hNode hChild hAgrees hGreater _ ih =>
      have hEq := s.minChild_eq hole
      have hMin := minChild_frame hSame hn hp
      have hSlot := hp (s.minChild hole) (by omega)
      rw [← hSame.agrees, ← hSlot, ← hMin] at hAgrees
      rw [← hSame.elemGreater, ← hSlot, ← hMin] at hGreater
      refine .moves (by rwa [hn]) (hChild.frame hSame hn hp) hAgrees hGreater ?_
      rw [hMin]
      exact ih fun i hi => hp i (by omega)

/-- Where the children are compared rightly, the loop looks at a least one. -/
theorem ChildFits.least (h : s.ChildFits hole) {i : Nat} (hPos : 0 < i) (hi : i < s.n)
    (hParent : parent i = hole) : s.keys (s.minChild hole) ≤ s.keys i := by
  have hSide := parent_eq_iff.mp ⟨hPos, hParent⟩
  unfold minChild
  rcases h with hLast | hAgrees
  · rw [if_pos (Or.inl hLast), show i = 2 * (hole + 1) - 1 by omega]
  · split_ifs with hGreater
    · rcases hGreater with hLast | hGreater
      · rw [show i = 2 * (hole + 1) - 1 by omega]
      · have hLt := hAgrees.mp hGreater
        rcases hSide with rfl | rfl
        · exact le_refl _
        · exact hLt.le
    · have hLe := not_lt.mp (mt hAgrees.mpr (not_or.mp hGreater).2)
      rcases hSide with rfl | rfl
      · exact hLe
      · exact le_refl _

/-- A sift up that compares rightly restores the order. Only the keys below the hole
bound the one that is sifted; those above it are what the loop compares. -/
theorem UpFits.ordered (h : s.UpFits e hole) (hHole : hole < s.n) (hOff : OrderedOff s.keys s.n hole)
    (hBelow : ∀ i, 0 < i → i < s.n → parent i = hole → s.time e ≤ s.keys i) :
    Ordered (s.minHeapShiftUp hole e).keys s.n := by
  induction s, hole using minHeapShiftUp.induct (e := e) with
  | case1 s hole hMove ih =>
      have hPos : 0 < hole := by omega
      have hLt := parent_lt hPos
      rw [minHeapShiftUp, if_pos hMove]
      cases h with
      | root => omega
      | stays _ hNot => exact absurd hMove.2 hNot
      | moves _ hAgrees hGreater hRest =>
          have hTime : s.time e < s.keys (parent hole) := hAgrees.mp hGreater
          have hSame := sameEvents_put s hole (s.p (parent hole))
          refine ih (hRest.frame hSame fun i hi => ?_) (by rw [n_put]; omega) ?_ ?_
          · rw [p_put, Function.update_of_ne (by omega)]
          · rw [keys_put]
            exact hOff.up hPos hHole
          · intro i hi hn hParent
            rw [keys_put, hSame.time]
            by_cases hHere : i = hole
            · rw [hHere, Function.update_self]
              exact hTime.le
            · rw [Function.update_of_ne hHere]
              have hSide := hOff.off i hi hn hHere (by omega)
              rw [hParent] at hSide
              exact hTime.le.trans hSide
  | case2 s hole hStay =>
      rw [minHeapShiftUp, if_neg hStay, keys_put]
      refine hOff.fill (fun hPos => ?_) hBelow
      cases h with
      | root => omega
      | stays hAgrees hNot => exact not_lt.mp (mt hAgrees.mpr hNot)
      | moves _ _ hGreater _ => exact absurd ⟨by omega, hGreater⟩ hStay

/-- A sift down that compares rightly restores the order. The key above the hole bounds
the one that is sifted, and the loop compares with the lesser child. -/
theorem DownFits.ordered (h : s.DownFits e hole) (hOff : OrderedOff s.keys s.n hole)
    (hAbove : 0 < hole → s.keys (parent hole) ≤ s.time e) :
    Ordered (s.minHeapShiftDown hole e).keys s.n := by
  induction s, hole using minHeapShiftDown.induct (e := e) with
  | case1 s hole hMove ih =>
      have hEq := s.minChild_eq hole
      rw [minHeapShiftDown, if_pos hMove]
      cases h with
      | leaf hLeaf => omega
      | stays _ _ hNot => exact absurd hMove.2 hNot
      | moves hNode hChild hAgrees hGreater hRest =>
          have hTime : s.keys (s.minChild hole) < s.time e := hAgrees.mp hGreater
          have hSame := sameEvents_put s hole (s.p (s.minChild hole))
          refine ih (hRest.frame hSame rfl fun i hi => ?_) ?_ ?_
          · rw [p_put, Function.update_of_ne (by omega)]
          · rw [keys_put]
            exact hOff.down (s.minChild_child hole) (minChild_lt hNode) fun i hi hn => hChild.least hi hn
          · intro _
            rw [keys_put, hSame.time, (s.minChild_child hole).2, Function.update_self]
            exact hTime.le
  | case2 s hole hStay =>
      rw [minHeapShiftDown, if_neg hStay, keys_put]
      refine hOff.fill hAbove fun i hi hn hParent => ?_
      have hSide := parent_eq_iff.mp ⟨hi, hParent⟩
      cases h with
      | leaf hLeaf => omega
      | stays hChild hAgrees hNot =>
          have hLe : s.time e ≤ s.keys (s.minChild hole) := not_lt.mp (mt hAgrees.mpr hNot)
          exact hLe.trans (hChild.least hi hn hParent)
      | moves hNode _ _ hGreater _ => exact absurd ⟨hNode, hGreater⟩ hStay

end Order

section Operations

variable {s s' : Timers}

/-- A push that finds no room changes nothing, and another one sifts up from the end. -/
theorem minHeapPush_cases (s : Timers) (e : Nat) (realloc : Bool) :
    s.minHeapPush e realloc = (-1, s) ∨
      (s.a < s.n + 1 → realloc = true) ∧
        ∃ a, s.minHeapPush e realloc = (0, minHeapShiftUp { s with n := s.n + 1, a := a } s.n e) := by
  unfold minHeapPush minHeapReserve
  split_ifs with hFull hRealloc hNone
  · exact Or.inr ⟨fun _ => hRealloc, _, rfl⟩
  · exact Or.inr ⟨fun _ => hRealloc, _, rfl⟩
  · exact Or.inl rfl
  · exact Or.inr ⟨fun hNot => absurd hNot hFull, s.a, rfl⟩

theorem sameEvents_minHeapPush (s : Timers) (e : Nat) (realloc : Bool) :
    s.SameEvents (s.minHeapPush e realloc).2 := by
  rcases s.minHeapPush_cases e realloc with hPush | ⟨-, a, hPush⟩
  · rw [hPush]
    exact .refl s
  · rw [hPush]
    have hStart : s.SameEvents { s with n := s.n + 1, a := a } := .refl s
    exact hStart.trans (sameEvents_minHeapShiftUp _ _ _)

theorem minHeapShiftUpUnconditional_eq {hole e : Nat} (hPos : 0 < hole)
    (hGreater : s.elemGreater (s.p (parent hole)) e) :
    s.minHeapShiftUpUnconditional hole e = s.minHeapShiftUp hole e := by
  rw [minHeapShiftUp, if_pos ⟨by omega, hGreater⟩, minHeapShiftUpUnconditional]

theorem Indexed.parted_push (h : s.Indexed) {e : Nat} (he : ¬ s.Has e) (a : Nat) :
    ({ s with n := s.n + 1, a := a } : Timers).Parted s.n e where
  idx i hi hNe := h i (by simp only at hi; omega)
  apart i hi hNe hSame := he ⟨i, by simp only at hi; omega, hSame⟩

theorem beside_push (s : Timers) (a x : Nat) :
    ({ s with n := s.n + 1, a := a } : Timers).Beside s.n x ↔ s.Has x := by
  constructor
  · rintro ⟨i, hi, hNe, rfl⟩
    exact ⟨i, by simp only at hi; omega, rfl⟩
  · rintro ⟨i, hi, rfl⟩
    exact ⟨i, by simp only; omega, by omega, rfl⟩

theorem Indexed.parted_removed (h : s.Indexed) (i : Nat) :
    ({ s with n := s.n - 1 } : Timers).Parted i (s.p (s.n - 1)) where
  idx j hj _ := h j (by simp only at hj; omega)
  apart j hj _ hSame := by
    simp only at hj
    have hEnd := h.inj (by omega) (by omega) hSame
    omega

structure Pushed (s : Timers) (e : Nat) (s' : Timers) : Prop where
  n : s'.n = s.n + 1
  same : s.SameEvents s'
  indexed : s'.Indexed
  has : ∀ x, s'.Has x ↔ x = e ∨ s.Has x
  off : ∀ x, ¬ s'.Has x → s'.ev x = s.ev x

theorem Indexed.pushed (h : s.Indexed) {e : Nat} (he : ¬ s.Has e) (a : Nat) :
    s.Pushed e (minHeapShiftUp { s with n := s.n + 1, a := a } s.n e) := by
  have hSifted := (h.parted_push he a).sifted_up (Nat.lt_succ_self s.n)
  exact ⟨hSifted.n, hSifted.same, hSifted.indexed,
    fun x => (hSifted.has x).trans (or_congr Iff.rfl (beside_push s a x)), hSifted.off⟩

structure Removed (s : Timers) (e : Nat) (s' : Timers) : Prop where
  n : s'.n = s.n - 1
  same : s.SameEvents s'
  indexed : s'.Indexed
  has : ∀ x, s'.Has x ↔ s.Has x ∧ x ≠ e
  idx : (s'.ev e).minHeapIdx = -1
  off : ∀ x, ¬ s.Has x → s'.ev x = s.ev x

/-- The event of another position is taken out, and the last one is sifted in. -/
theorem Indexed.removed_of_sifted (h : s.Indexed) {i : Nat} (hi : i < s.n - 1)
    (hSifted : ({ s with n := s.n - 1 } : Timers).Sifted i (s.p (s.n - 1)) s') :
    s.Removed (s.p i) (s'.setIdx (s.p i) (-1)) := by
  have hHas : ∀ x, s'.Has x ↔ s.Has x ∧ x ≠ s.p i := by
    intro x
    rw [hSifted.has]
    constructor
    · rintro (rfl | ⟨j, hj, hNe, rfl⟩)
      · exact ⟨⟨s.n - 1, by omega, rfl⟩, fun hSame => by have := h.inj (by omega) (by omega) hSame; omega⟩
      · simp only at hj
        exact ⟨⟨j, by omega, rfl⟩, fun hSame => hNe (h.inj (by omega) (by omega) hSame)⟩
    · rintro ⟨⟨j, hj, rfl⟩, hNe⟩
      by_cases hLast : j = s.n - 1
      · exact Or.inl (by rw [hLast])
      · exact Or.inr ⟨j, by simp only; omega, fun hSame => hNe (by rw [hSame]), rfl⟩
  refine ⟨hSifted.n, hSifted.same.trans (sameEvents_setIdx _ _ _), ?_, hHas, ?_, ?_⟩
  · intro j hj
    have hOther : s'.p j ≠ s.p i := ((hHas _).mp ⟨j, hj, rfl⟩).2
    rw [p_setIdx, ev_setIdx_other _ _ hOther]
    exact hSifted.indexed j hj
  · rw [ev_setIdx_same]
  · intro x hx
    have hOther : x ≠ s.p i := by
      rintro rfl
      exact hx ⟨i, by omega, rfl⟩
    rw [ev_setIdx_other _ _ hOther]
    exact hSifted.off x fun hHas' => hx ((hHas x).mp hHas').1

/-- The last event is taken out. The code writes it to its own slot once more, which
changes nothing. -/
theorem Indexed.removed_last (h : s.Indexed) (hPos : 0 < s.n) :
    s.Removed (s.p (s.n - 1))
      ((({ s with n := s.n - 1 } : Timers).put (s.n - 1) (s.p (s.n - 1))).setIdx (s.p (s.n - 1)) (-1)) := by
  have hSlot : ∀ j, j < s.n - 1 → s.p j ≠ s.p (s.n - 1) := by
    intro j hj hSame
    have := h.inj (by omega) (by omega) hSame
    omega
  have hOff : ∀ x, x ≠ s.p (s.n - 1) →
      ((({ s with n := s.n - 1 } : Timers).put (s.n - 1) (s.p (s.n - 1))).setIdx (s.p (s.n - 1)) (-1)).ev x =
        s.ev x := by
    intro x hx
    rw [ev_setIdx_other _ _ hx, put, ev_setIdx_other _ _ hx]
  refine ⟨rfl, (sameEvents_put _ _ _).trans (sameEvents_setIdx _ _ _), ?_, ?_, ?_, ?_⟩
  · intro j hj
    have hj' : j < s.n - 1 := hj
    rw [p_setIdx, p_put, Function.update_of_ne (by omega), hOff _ (hSlot j hj')]
    exact h j (by omega)
  · intro x
    constructor
    · rintro ⟨j, hj, rfl⟩
      have hj' : j < s.n - 1 := hj
      rw [p_setIdx, p_put, Function.update_of_ne (by omega)]
      exact ⟨⟨j, by omega, rfl⟩, hSlot j hj'⟩
    · rintro ⟨⟨j, hj, rfl⟩, hNe⟩
      have hLast : j ≠ s.n - 1 := fun hSame => hNe (by rw [hSame])
      exact ⟨j, show j < s.n - 1 by omega, by rw [p_setIdx, p_put, Function.update_of_ne hLast]⟩
  · rw [ev_setIdx_same]
  · intro x hx
    exact hOff x fun hSame => hx ⟨s.n - 1, by omega, hSame.symm⟩

/-- All comparisons of a removal of `e` agree. -/
def EraseFits (s : Timers) (e : Nat) : Prop :=
  let t : Timers := { s with n := s.n - 1 }
  let last := s.p (s.n - 1)
  let idx := (s.ev e).minHeapIdx
  if 0 < idx ∧ s.elemGreater (s.p (parent idx.toNat)) last then t.UpFits last idx.toNat
  else (0 < idx → s.Agrees (s.p (parent idx.toNat)) last) ∧ t.DownFits last idx.toNat

/-- The hole that a removal opens. -/
theorem OrderedOff.of_removed {s : Timers} (h : Ordered s.keys s.n) {i : Nat} (hi : i < s.n) :
    OrderedOff s.keys (s.n - 1) i where
  off := fun j hPos hj hNe hParent => (h.off hi).off j hPos (by omega) hNe hParent
  across := fun j hPos hj hParent hHole => (h.off hi).across j hPos (by omega) hParent hHole

theorem ordered_pushed (h : Ordered s.keys s.n) {e : Nat} (hFits : s.UpFits e s.n) (a : Nat) :
    Ordered (minHeapShiftUp { s with n := s.n + 1, a := a } s.n e).keys (s.n + 1) := by
  have hFits' : ({ s with n := s.n + 1, a := a } : Timers).UpFits e s.n :=
    hFits.frame (.refl _) fun _ _ => rfl
  refine hFits'.ordered (Nat.lt_succ_self s.n) ⟨?_, ?_⟩ ?_
  · intro i hPos hi hNe _
    exact h i hPos (by simp only at hi; omega)
  · intro i hPos hi hParent _
    have hLt := parent_lt hPos
    simp only at hi
    omega
  · intro i hPos hi hParent
    have hLt := parent_lt hPos
    simp only at hi
    omega

/-- A pop or a removal of the first event that compares rightly. -/
theorem ordered_down (h : Ordered s.keys s.n) {i : Nat} (hi : i < s.n)
    (hFits : ({ s with n := s.n - 1 } : Timers).DownFits (s.p (s.n - 1)) i)
    (hAbove : 0 < i → s.keys (parent i) ≤ s.keys (s.n - 1)) :
    Ordered (minHeapShiftDown { s with n := s.n - 1 } i (s.p (s.n - 1))).keys (s.n - 1) :=
  hFits.ordered (OrderedOff.of_removed h hi) hAbove

theorem ordered_up (h : Ordered s.keys s.n) {i : Nat} (hi : i < s.n - 1) (hPos : 0 < i)
    (hFits : ({ s with n := s.n - 1 } : Timers).UpFits (s.p (s.n - 1)) i)
    (hLt : s.keys (s.n - 1) < s.keys (parent i)) :
    Ordered (minHeapShiftUp { s with n := s.n - 1 } i (s.p (s.n - 1))).keys (s.n - 1) := by
  refine hFits.ordered hi (OrderedOff.of_removed h (by omega)) ?_
  intro j hj hn hParent
  exact hLt.le.trans ((h.off (by omega)).across j hj (by simp only at hn; omega) hParent hPos)

theorem keys_setIdx (s : Timers) (e : Nat) (idx : Int) : (s.setIdx e idx).keys = s.keys := by
  funext i
  exact (sameEvents_setIdx s e idx).time _

theorem minHeapShiftDown_leaf {hole : Nat} (h : s.n < 2 * (hole + 1)) (e : Nat) :
    s.minHeapShiftDown hole e = s.put hole e := by
  rw [minHeapShiftDown, if_neg (fun hMove => by omega)]

/-- A sift down from any position takes its event out. -/
theorem Indexed.removed_down (h : s.Indexed) {i : Nat} (hi : i < s.n) :
    s.Removed (s.p i) ((minHeapShiftDown { s with n := s.n - 1 } i (s.p (s.n - 1))).setIdx (s.p i) (-1)) := by
  by_cases hLast : i = s.n - 1
  · rw [hLast, minHeapShiftDown_leaf (by simp only; omega)]
    exact h.removed_last (by omega)
  · exact h.removed_of_sifted (by omega) ((h.parted_removed i).sifted_down (by simp only; omega))

/-- The branch of a removal that sifts the last event up. -/
theorem minHeapErase_up {i : Nat} (hIdx : (s.ev (s.p i)).minHeapIdx = i) (hPos : 0 < i)
    (hGreater : s.elemGreater (s.p (parent i)) (s.p (s.n - 1))) :
    s.minHeapErase (s.p i) =
      (minHeapShiftUp { s with n := s.n - 1 } i (s.p (s.n - 1))).setIdx (s.p i) (-1) := by
  rw [← minHeapShiftUpUnconditional_eq (s := { s with n := s.n - 1 }) hPos hGreater]
  simp only [minHeapErase, hIdx, Int.toNat_natCast, Nat.cast_pos]
  rw [if_pos ⟨hPos, hGreater⟩]

/-- The branch of a removal that sifts the last event down. -/
theorem minHeapErase_down {i : Nat} (hIdx : (s.ev (s.p i)).minHeapIdx = i)
    (hNot : ¬ (0 < i ∧ s.elemGreater (s.p (parent i)) (s.p (s.n - 1)))) :
    s.minHeapErase (s.p i) =
      (minHeapShiftDown { s with n := s.n - 1 } i (s.p (s.n - 1))).setIdx (s.p i) (-1) := by
  simp only [minHeapErase, hIdx, Int.toNat_natCast, Nat.cast_pos]
  exact congrArg (fun t : Timers => t.setIdx (s.p i) (-1)) (if_neg hNot)

/-- A removal takes its event out, unless the event is the last one and is sifted up again. -/
theorem Indexed.removed_erase (h : s.Indexed) {i : Nat} (hi : i < s.n)
    (hKept : 0 < i → s.elemGreater (s.p (parent i)) (s.p (s.n - 1)) → i < s.n - 1) :
    s.Removed (s.p i) (s.minHeapErase (s.p i)) := by
  by_cases hUp : 0 < i ∧ s.elemGreater (s.p (parent i)) (s.p (s.n - 1))
  · have hBefore := hKept hUp.1 hUp.2
    rw [minHeapErase_up (h i hi) hUp.1 hUp.2]
    exact h.removed_of_sifted hBefore ((h.parted_removed i).sifted_up hBefore)
  · rw [minHeapErase_down (h i hi) hUp]
    exact h.removed_down hi

/-- The heap is in order, and its events know their positions. -/
structure WellFormed (s : Timers) : Prop where
  ordered : Ordered s.keys s.n
  indexed : s.Indexed

/-- A removal that compares rightly takes out its event and keeps the order. The last
event goes to the free slot, and is sifted up or down from there. -/
theorem WellFormed.erase (h : s.WellFormed) {e : Nat} (he : s.Has e) (hFits : s.EraseFits e) :
    s.Removed e (s.minHeapErase e) ∧ Ordered (s.minHeapErase e).keys (s.n - 1) := by
  obtain ⟨i, hi, rfl⟩ := he
  have hIdx := h.indexed i hi
  simp only [EraseFits, hIdx, Int.toNat_natCast, Nat.cast_pos] at hFits
  by_cases hUp : 0 < i ∧ s.elemGreater (s.p (parent i)) (s.p (s.n - 1))
  · rw [if_pos hUp] at hFits
    have hLt : s.keys (s.n - 1) < s.keys (parent i) := by
      cases hFits with
      | root => exact absurd hUp.1 (lt_irrefl 0)
      | stays _ hNot => exact absurd hUp.2 hNot
      | moves _ hAgrees hGreater _ => exact hAgrees.mp hGreater
    have hBefore : i < s.n - 1 := by
      by_contra hNot
      have hLast : i = s.n - 1 := by omega
      have hLe := h.ordered i hUp.1 hi
      rw [← hLast] at hLt
      exact absurd hLt (not_lt.mpr hLe)
    refine ⟨h.indexed.removed_erase hi fun _ _ => hBefore, ?_⟩
    rw [minHeapErase_up hIdx hUp.1 hUp.2, keys_setIdx]
    exact ordered_up h.ordered hBefore hUp.1 hFits hLt
  · rw [if_neg hUp] at hFits
    refine ⟨h.indexed.removed_erase hi fun hPos hGreater => absurd ⟨hPos, hGreater⟩ hUp, ?_⟩
    rw [minHeapErase_down hIdx hUp, keys_setIdx]
    refine ordered_down h.ordered hi hFits.2 fun hPos => ?_
    exact not_lt.mp (mt (hFits.1 hPos).mpr fun hGreater => hUp ⟨hPos, hGreater⟩)

/-- A pop that compares rightly. -/
theorem WellFormed.pop (h : s.WellFormed) (hPos : 0 < s.n)
    (hFits : ({ s with n := s.n - 1 } : Timers).DownFits (s.p (s.n - 1)) 0) :
    s.minHeapPop.1 = some (s.p 0) ∧ s.Removed (s.p 0) s.minHeapPop.2 ∧ Ordered s.minHeapPop.2.keys (s.n - 1) := by
  rw [minHeapPop, if_neg (by omega)]
  refine ⟨rfl, h.indexed.removed_down hPos, ?_⟩
  rw [keys_setIdx]
  exact ordered_down h.ordered hPos hFits fun hNot => absurd hNot (lt_irrefl 0)

end Operations

section Runs

def setEndtime (s : Timers) (e : Nat) (endtime : LtTime) : Timers :=
  { s with ev := Function.update s.ev e { s.ev e with endtime := endtime } }

theorem ev_setEndtime_other (s : Timers) {e x : Nat} (endtime : LtTime) (h : x ≠ e) :
    (s.setEndtime e endtime).ev x = s.ev x :=
  Function.update_of_ne h _ _

theorem idx_setEndtime (s : Timers) (e x : Nat) (endtime : LtTime) :
    ((s.setEndtime e endtime).ev x).minHeapIdx = (s.ev x).minHeapIdx := by
  by_cases hx : x = e
  · simp [hx, setEndtime]
  · rw [ev_setEndtime_other _ _ hx]

/-- The calls of a user of the heap, who fixes the endtime before the push. -/
inductive HeapCall where
  | push (e : Nat) (endtime : LtTime) (realloc : Bool)
  | pop
  | erase (e : Nat)

def call (s : Timers) : HeapCall → Timers
  | .push e endtime realloc => ((s.setEndtime e endtime).minHeapPush e realloc).2
  | .pop => s.minHeapPop.2
  | .erase e => s.minHeapErase e

/-- Only events that are not in the heap are pushed, and only events in it are erased. -/
def Legal (s : Timers) : HeapCall → Prop
  | .push e _ _ => ¬ s.Has e
  | .pop => True
  | .erase e => s.Has e

/-- Every comparison that a call makes agrees with the order of the endtimes. -/
def Fits (s : Timers) : HeapCall → Prop
  | .push e endtime _ => (s.setEndtime e endtime).UpFits e s.n
  | .pop => 0 < s.n → ({ s with n := s.n - 1 } : Timers).DownFits (s.p (s.n - 1)) 0
  | .erase e => s.EraseFits e

/-- The heap is a min-heap, and a pop returns an event whose endtime is least. -/
structure MinHeap (s : Timers) : Prop where
  ordered : Ordered s.keys s.n
  popsLeast : 0 < s.n → ∃ e, s.minHeapPop.1 = some e ∧ s.Has e ∧ ∀ x, s.Has x → s.time e ≤ s.time x

theorem wellFormed_constructor (p : Nat → Nat) (ev : Nat → EventT) : (minHeapConstructor p ev).WellFormed where
  ordered i _ hi := absurd hi (Nat.not_lt_zero i)
  indexed i hi := absurd hi (Nat.not_lt_zero i)

theorem WellFormed.minHeap {s : Timers} (h : s.WellFormed) : s.MinHeap where
  ordered := h.ordered
  popsLeast hPos := by
    refine ⟨s.p 0, by rw [minHeapPop, if_neg (by omega)], ⟨0, hPos, rfl⟩, ?_⟩
    rintro _ ⟨i, hi, rfl⟩
    exact h.ordered.root_le i hi

theorem Removed.wellFormed {s s' : Timers} {e : Nat} (h : s.Removed e s') (hOrdered : Ordered s'.keys (s.n - 1)) :
    s'.WellFormed :=
  ⟨by rwa [h.n], h.indexed⟩

/-- A new endtime for an event outside the heap. -/
theorem WellFormed.setEndtime {s : Timers} (h : s.WellFormed) {e : Nat} (he : ¬ s.Has e) (endtime : LtTime) :
    (s.setEndtime e endtime).WellFormed := by
  have hEv : ∀ i, i < s.n → (s.setEndtime e endtime).ev (s.p i) = s.ev (s.p i) := by
    intro i hi
    exact Function.update_of_ne (fun hSame => he ⟨i, hi, hSame⟩) _ _
  constructor
  · intro i hPos hi
    have hKey : ∀ j, j < s.n → (s.setEndtime e endtime).keys j = s.keys j := fun j hj =>
      congrArg (fun x : EventT => x.endtime.total) (hEv j hj)
    rw [hKey _ ((parent_lt hPos).trans hi), hKey i hi]
    exact h.ordered i hPos hi
  · intro i hi
    exact (congrArg EventT.minHeapIdx (hEv i hi)).trans (h.indexed i hi)

/-- A legal call whose comparisons agree keeps the heap well formed. -/
theorem WellFormed.call {s : Timers} (h : s.WellFormed) (c : HeapCall) (hLegal : s.Legal c) (hFits : s.Fits c) :
    (s.call c).WellFormed := by
  cases c with
  | push e endtime realloc =>
      have hSet := h.setEndtime hLegal endtime
      simp only [Timers.call]
      rcases minHeapPush_cases (s.setEndtime e endtime) e realloc with hPush | ⟨-, a, hPush⟩
      · rw [hPush]
        exact hSet
      · rw [hPush]
        have hPushed := hSet.indexed.pushed hLegal a
        exact ⟨by rw [hPushed.n]; exact ordered_pushed hSet.ordered hFits a, hPushed.indexed⟩
  | pop =>
      simp only [Timers.call]
      rcases Nat.eq_zero_or_pos s.n with hNone | hPos
      · rw [minHeapPop, if_pos hNone]
        exact h
      · obtain ⟨-, hRemoved, hOrdered⟩ := h.pop hPos (hFits hPos)
        exact hRemoved.wellFormed hOrdered
  | erase e =>
      obtain ⟨hRemoved, hOrdered⟩ := h.erase hLegal hFits
      exact hRemoved.wellFormed hOrdered

/-- The timer heap is a min-heap in every run whose comparisons agree with the order of
the endtimes. Which comparisons a call makes is said of the heap as it stands before the
call. -/
theorem minHeap_of_run (p : Nat → Nat) (ev : Nat → EventT) {s : Timers}
    (hRun : Run.Reach call (fun s c => s.Legal c ∧ s.Fits c) (minHeapConstructor p ev) s) : s.MinHeap :=
  (hRun.all (wellFormed_constructor p ev) fun _ c h hGuard => h.call c hGuard.1 hGuard.2).minHeap

def firstPush (endtime : LtTime) : Timers :=
  (minHeapConstructor (fun _ => 0) fun _ => {}).call (.push 0 endtime true)

theorem firstPush_eq (endtime : LtTime) :
    firstPush endtime = ⟨Function.update (fun _ => 0) 0 0, 1, 8,
      Function.update (Function.update (fun _ => {}) 0 { endtime := endtime }) 0 { endtime := endtime }⟩ := by
  simp [firstPush, call, minHeapPush, minHeapReserve, minHeapConstructor, setEndtime, minHeapShiftUp, put, setIdx]

theorem firstPush_legal (endtime endtime' : LtTime) :
    (firstPush endtime).Legal (.push 1 endtime' true) := by
  rintro ⟨i, hi, hSame⟩
  rw [firstPush_eq] at hi hSame
  obtain rfl : i = 0 := Nat.lt_one_iff.mp hi
  exact absurd hSame Nat.zero_ne_one

/-- Of two events the later one is pushed last, and comes out at the root. -/
theorem not_minHeap_of_run :
    ¬ ∀ (p : Nat → Nat) (ev : Nat → EventT) (s : Timers),
      Run.Reach call Legal (minHeapConstructor p ev) s → s.MinHeap := by
  intro hClaim
  have hFirst : Run.Reach call Legal (minHeapConstructor (fun _ => 0) fun _ => {}) (firstPush ⟨0, 1⟩) :=
    .next (HeapCall.push 0 ⟨0, 1⟩ true) .start fun ⟨_, hi, _⟩ => absurd hi (Nat.not_lt_zero _)
  have hSecond := hClaim _ _ _ (.next (HeapCall.push 1 ⟨0, 2⟩ true) hFirst (firstPush_legal ⟨0, 1⟩ ⟨0, 2⟩))
  have hOrder := hSecond.ordered 1 (by decide)
  rw [firstPush_eq] at hOrder
  revert hOrder
  simp [call, minHeapPush, minHeapReserve, setEndtime, minHeapShiftUp, put, setIdx, keys, time, parent, elemGreater,
    ltTimeASubB, wrap64, LtTime.total]

theorem minHeap_of_run_twoPushes : ((firstPush ⟨0, 2⟩).call (.push 1 ⟨0, 1⟩ true)).MinHeap := by
  refine minHeap_of_run (fun _ => 0) (fun _ => {})
    (.next (HeapCall.push 1 ⟨0, 1⟩ true) (.next (HeapCall.push 0 ⟨0, 2⟩ true) .start ⟨?_, .root⟩)
      ⟨firstPush_legal ⟨0, 2⟩ ⟨0, 1⟩, ?_⟩)
  · exact fun ⟨_, hi, _⟩ => absurd hi (Nat.not_lt_zero _)
  · change ((firstPush ⟨0, 2⟩).setEndtime 1 ⟨0, 1⟩).UpFits 1 (firstPush ⟨0, 2⟩).n
    rw [firstPush_eq]
    exact .moves (by decide) (by decide) (by decide) .root

end Runs

end Timers
end Leactor
