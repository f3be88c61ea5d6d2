import Leactor.Library.Loop
import Leactor.Event.TimeHeap

/-! The slots of the timer heap, whatever the order of the endtimes. The sifts
are run as the loops of lea_heap.c, with `unsigned` indices in a block of `a`
slots; an access behind the block is a fault. -/
namespace Leactor
namespace Timers

open BinHeap Loop

section Slots

def events (s : Timers) : List Nat := (List.range s.n).map s.p

theorem mem_events {s : Timers} {x : Nat} : x ∈ s.events ↔ s.Has x := by
  simp [events, Has]

theorem Indexed.nodup {s : Timers} (h : s.Indexed) : s.events.Nodup := by
  refine List.Nodup.map_on ?_ List.nodup_range
  intro i hi j hj hSame
  exact h.inj (List.mem_range.mp hi) (List.mem_range.mp hj) hSame

theorem Pushed.perm {s s' : Timers} {e : Nat} (h : s.Pushed e s') (hIndexed : s.Indexed) (he : ¬ s.Has e) :
    s'.events.Perm (e :: s.events) := by
  have hNew : (e :: s.events).Nodup := List.nodup_cons.mpr ⟨mt mem_events.mp he, hIndexed.nodup⟩
  refine (List.perm_ext_iff_of_nodup h.indexed.nodup hNew).mpr fun x => ?_
  rw [List.mem_cons, mem_events, mem_events]
  exact h.has x

theorem Removed.perm {s s' : Timers} {e : Nat} (h : s.Removed e s') (hIndexed : s.Indexed) (he : s.Has e) :
    (e :: s'.events).Perm s.events := by
  have hGone : e ∉ s'.events := fun hMem => ((h.has e).mp (mem_events.mp hMem)).2 rfl
  have hOld : (e :: s'.events).Nodup := List.nodup_cons.mpr ⟨hGone, h.indexed.nodup⟩
  refine (List.perm_ext_iff_of_nodup hOld hIndexed.nodup).mpr fun x => ?_
  rw [List.mem_cons, mem_events, mem_events, h.has]
  constructor
  · rintro (rfl | ⟨hx, -⟩)
    · exact he
    · exact hx
  · exact fun hx => or_iff_not_imp_left.mpr fun hNe => ⟨hx, hNe⟩

end Slots

section Machine

def parent32 (hole : Nat) : Nat := (hole + (2 ^ 32 - 1)) % 2 ^ 32 / 2

def child32 (hole : Nat) : Nat := 2 * ((hole + 1) % 2 ^ 32) % 2 ^ 32

def read (s : Timers) (i : Nat) : Option Nat := if i < s.a then some (s.p i) else none

/-- `s->p[hole_index] = e; s->p[hole_index]->min_heap_idx = hole_index;` -/
def write (s : Timers) (hole e : Nat) : Option Timers := if hole < s.a then some (s.put hole e) else none

/-- The child that `min_heap_shift_down_` compares with: the neighbour is not
read where the right child is the slot behind the last one. -/
def child (s : Timers) (hole : Nat) : Option Nat :=
  if child32 hole = s.n then some (child32 hole - 1)
  else
    (s.read (child32 hole)).bind fun x =>
      (s.read (child32 hole - 1)).map fun y =>
        if s.elemGreater x y then child32 hole - 1 else child32 hole

def onward (s : Option Timers) (hole : Nat) : Turn (Timers × Nat) (Option Timers) :=
  match s with
  | none => .exit none
  | some s => .again (s, hole)

/-- One turn of the loop of `min_heap_shift_up_`. -/
def shiftUpTurn (e : Nat) : Timers × Nat → Turn (Timers × Nat) (Option Timers)
  | (s, hole) =>
      if hole = 0 then .exit (s.write hole e)
      else
        match s.read (parent32 hole) with
        | none => .exit none
        | some x =>
            if s.elemGreater x e then onward (s.write hole x) (parent32 hole)
            else .exit (s.write hole e)

/-- One turn of the loop of `min_heap_shift_down_`. -/
def shiftDownTurn (e : Nat) : Timers × Nat → Turn (Timers × Nat) (Option Timers)
  | (s, hole) =>
      if child32 hole ≤ s.n then
        match s.child hole with
        | none => .exit none
        | some c =>
            match s.read c with
            | none => .exit none
            | some x =>
                if s.elemGreater e x then onward (s.write hole x) c
                else .exit (s.write hole e)
      else .exit (s.write hole e)

def reserve32 (s : Timers) (n : Nat) (realloc : Bool) : Int × Timers :=
  if s.a < n then
    if realloc then (0, { s with a := max (if s.a = 0 then 8 else s.a * 2 % 2 ^ 32) n })
    else (-1, s)
  else (0, s)

/-- `min_heap_push_` ends with this result, `none` for a fault. -/
def PushRuns (s : Timers) (e : Nat) (realloc : Bool) (r : Option (Int × Timers)) : Prop :=
  match s.reserve32 ((s.n + 1) % 2 ^ 32) realloc with
  | (0, t) => ∃ r', Returns (shiftUpTurn e) ({ t with n := t.n + 1 }, t.n) r' ∧ r = r'.map fun t' => (0, t')
  | (_, t) => r = some (-1, t)

/-- `min_heap_pop_` on a heap that is not empty ends with this result. -/
def PopRuns (s : Timers) (r : Option (Nat × Timers)) : Prop :=
  match s.read 0, s.read (s.n - 1) with
  | some e, some last =>
      ∃ r', Returns (shiftDownTurn last) ({ s with n := s.n - 1 }, 0) r' ∧
        r = r'.map fun t => (e, t.setIdx e (-1))
  | _, _ => r = none

variable {s : Timers} {hole : Nat}

theorem parent32_eq (hPos : 0 < hole) (hFits : hole < 2 ^ 32) : parent32 hole = parent hole := by
  unfold parent32 parent
  omega

theorem child32_eq (hFits : hole < 2 ^ 31 - 1) : child32 hole = 2 * (hole + 1) := by
  unfold child32
  omega

theorem read_of_lt {i : Nat} (h : i < s.a) : s.read i = some (s.p i) := if_pos h

theorem write_of_lt (h : hole < s.a) (e : Nat) : s.write hole e = some (s.put hole e) := if_pos h

theorem child_eq (hNode : 2 * (hole + 1) ≤ s.n) (hRoom : s.n ≤ s.a) (hSize : s.n < 2 ^ 31) :
    s.child hole = some (s.minChild hole) := by
  unfold child minChild
  rw [child32_eq (by omega)]
  by_cases hLast : 2 * (hole + 1) = s.n
  · rw [if_pos hLast, if_pos (Or.inl hLast)]
  · rw [if_neg hLast, read_of_lt (by omega), read_of_lt (by omega)]
    simp only [Option.bind_some, Option.map_some, hLast, false_or]

/-- The loop of a sift up stays inside the block and ends. -/
theorem returns_shiftUp (e : Nat) (hHole : hole < s.a) (hSize : hole < 2 ^ 32) :
    Returns (shiftUpTurn e) (s, hole) (some (s.minHeapShiftUp hole e)) := by
  induction s, hole using minHeapShiftUp.induct (e := e) with
  | case1 s hole hMove ih =>
      have hPos : 0 < hole := by omega
      have hLt := parent_lt hPos
      have hTurn : shiftUpTurn e (s, hole) = .again (s.put hole (s.p (parent hole)), parent hole) := by
        rw [shiftUpTurn, if_neg hMove.1, parent32_eq hPos hSize, read_of_lt (by omega)]
        simp only [hMove.2, if_true, write_of_lt hHole, onward]
      rw [minHeapShiftUp, if_pos hMove, returns_again_iff hTurn]
      exact ih (hLt.trans hHole) (hLt.trans hSize)
  | case2 s hole hStay =>
      refine returns_of_exit ?_
      rw [minHeapShiftUp, if_neg hStay, shiftUpTurn, write_of_lt hHole]
      split_ifs with hRoot
      · rfl
      · have hLt := parent_lt (Nat.pos_of_ne_zero hRoot)
        rw [parent32_eq (Nat.pos_of_ne_zero hRoot) hSize, read_of_lt (by omega)]
        exact if_neg fun hGreater => hStay ⟨hRoot, hGreater⟩

/-- The loop of a sift down stays inside the block and ends. -/
theorem returns_shiftDown (e : Nat) (hHole : hole < s.a) (hFits : hole ≤ s.n) (hRoom : s.n ≤ s.a)
    (hSize : s.n < 2 ^ 31 - 1) :
    Returns (shiftDownTurn e) (s, hole) (some (s.minHeapShiftDown hole e)) := by
  induction s, hole using minHeapShiftDown.induct (e := e) with
  | case1 s hole hMove ih =>
      have hLt := minChild_lt hMove.1
      have hTurn : shiftDownTurn e (s, hole) = .again (s.put hole (s.p (s.minChild hole)), s.minChild hole) := by
        rw [shiftDownTurn, child32_eq (by omega), if_pos hMove.1, child_eq hMove.1 hRoom (by omega)]
        simp only [read_of_lt (hLt.trans_le hRoom), hMove.2, if_true, write_of_lt hHole, onward]
      rw [minHeapShiftDown, if_pos hMove, returns_again_iff hTurn]
      exact ih (hLt.trans_le hRoom) hLt.le hRoom hSize
  | case2 s hole hStay =>
      refine returns_of_exit ?_
      rw [minHeapShiftDown, if_neg hStay, shiftDownTurn, write_of_lt hHole, child32_eq (by omega)]
      split_ifs with hNode
      · rw [child_eq hNode hRoom (by omega)]
        simp only [read_of_lt ((minChild_lt hNode).trans_le hRoom)]
        exact if_neg fun hGreater => hStay ⟨hNode, hGreater⟩
      · rfl

theorem reserve32_eq (hRoom : s.n ≤ s.a) (hSize : s.n < 2 ^ 31 - 1) (realloc : Bool) :
    s.reserve32 ((s.n + 1) % 2 ^ 32) realloc = s.minHeapReserve (s.n + 1) realloc := by
  rw [Nat.mod_eq_of_lt (by omega)]
  unfold reserve32 minHeapReserve
  split_ifs with hFull
  all_goals first | rfl | rw [Nat.mod_eq_of_lt (by omega)]

/-- What a push owes to its caller, whatever the order of the endtimes. -/
structure PushKeeps (s : Timers) (e : Nat) (realloc : Bool) : Prop where
  runs : s.PushRuns e realloc (some (s.minHeapPush e realloc))
  room : (s.a < s.n + 1 → realloc = true) →
    (s.minHeapPush e realloc).1 = 0 ∧ (s.minHeapPush e realloc).2.n = s.n + 1 ∧
      (s.minHeapPush e realloc).2.events.Perm (e :: s.events) ∧ (s.minHeapPush e realloc).2.Indexed
  full : s.a < s.n + 1 → realloc = false → s.minHeapPush e realloc = (-1, s)

structure PopKeeps (s : Timers) : Prop where
  runs : s.PopRuns (some (s.p 0, s.minHeapPop.2))
  first : s.minHeapPop.1 = some (s.p 0)
  n : s.minHeapPop.2.n = s.n - 1
  idx : (s.minHeapPop.2.ev (s.p 0)).minHeapIdx = -1
  perm : (s.p 0 :: s.minHeapPop.2.events).Perm s.events
  indexed : s.minHeapPop.2.Indexed

theorem minHeapReserve_room {realloc : Bool} (h : s.a < s.n + 1 → realloc = true) :
    ∃ a, s.n < a ∧ s.minHeapReserve (s.n + 1) realloc = (0, { s with a := a }) := by
  unfold minHeapReserve
  by_cases hFull : s.a < s.n + 1
  · rw [if_pos hFull, if_pos (h hFull)]
    exact ⟨_, Nat.lt_of_lt_of_le (Nat.lt_succ_self _) (le_max_right _ _), rfl⟩
  · rw [if_neg hFull]
    exact ⟨s.a, by omega, rfl⟩

theorem minHeapReserve_full (h : s.a < s.n + 1) : s.minHeapReserve (s.n + 1) false = (-1, s) := by
  rw [minHeapReserve, if_pos h]
  rfl

/-- Where there is room, or `realloc` makes it, the event is sifted up from the end. -/
theorem minHeapPush_room {realloc : Bool} (h : s.a < s.n + 1 → realloc = true) (e : Nat) :
    ∃ a, s.minHeapPush e realloc = (0, minHeapShiftUp { s with n := s.n + 1, a := a } s.n e) := by
  obtain ⟨a, -, hReserve⟩ := minHeapReserve_room h
  exact ⟨a, by rw [minHeapPush, hReserve]; rfl⟩

theorem minHeapPush_full (h : s.a < s.n + 1) (e : Nat) : s.minHeapPush e false = (-1, s) := by
  rw [minHeapPush, minHeapReserve_full h]
  rfl

theorem pushRuns_minHeapPush (hRoom : s.n ≤ s.a) (hSize : s.n < 2 ^ 31 - 1) (e : Nat) (realloc : Bool) :
    s.PushRuns e realloc (some (s.minHeapPush e realloc)) := by
  rw [PushRuns, reserve32_eq hRoom hSize]
  by_cases hRealloc : s.a < s.n + 1 → realloc = true
  · obtain ⟨a, ha, hReserve⟩ := minHeapReserve_room hRealloc
    rw [minHeapPush, hReserve]
    exact ⟨_, returns_shiftUp e (by exact ha) (by simp only; omega), rfl⟩
  · obtain ⟨hFull, hNot⟩ := Classical.not_imp.mp hRealloc
    obtain rfl : realloc = false := Bool.eq_false_iff.mpr hNot
    rw [minHeapPush_full hFull, minHeapReserve_full hFull]
    exact (rfl : some ((-1 : Int), s) = some (-1, s))

theorem Indexed.pushKeeps (h : s.Indexed) (hRoom : s.n ≤ s.a) (hSize : s.n < 2 ^ 31 - 1) {e : Nat}
    (he : ¬ s.Has e) (realloc : Bool) : s.PushKeeps e realloc where
  runs := pushRuns_minHeapPush hRoom hSize e realloc
  room hRealloc := by
    obtain ⟨a, hPush⟩ := minHeapPush_room hRealloc e
    have hPushed := h.pushed he a
    rw [hPush]
    exact ⟨rfl, hPushed.n, hPushed.perm h he, hPushed.indexed⟩
  full hFull hRealloc := by
    rw [hRealloc]
    exact minHeapPush_full hFull e

theorem popRuns_minHeapPop (hRoom : s.n ≤ s.a) (hSize : s.n < 2 ^ 31 - 1) (hPos : 0 < s.n) :
    s.PopRuns (some (s.p 0, s.minHeapPop.2)) := by
  rw [PopRuns, read_of_lt (by omega), read_of_lt (by omega)]
  refine ⟨_, returns_shiftDown _ (by exact hPos.trans_le hRoom) (Nat.zero_le _) ?_ ?_, ?_⟩
  · exact (Nat.sub_le _ _).trans hRoom
  · exact (Nat.sub_le _ _).trans_lt hSize
  · rw [minHeapPop, if_neg (by omega)]
    rfl

theorem Indexed.popKeeps (h : s.Indexed) (hRoom : s.n ≤ s.a) (hSize : s.n < 2 ^ 31 - 1) (hPos : 0 < s.n) :
    s.PopKeeps := by
  have hPop : s.minHeapPop = (some (s.p 0), (minHeapShiftDown { s with n := s.n - 1 } 0 (s.p (s.n - 1))).setIdx
      (s.p 0) (-1)) := by
    rw [minHeapPop, if_neg (by omega)]
  have hRemoved : s.Removed (s.p 0) s.minHeapPop.2 := by
    rw [hPop]
    exact h.removed_down hPos
  exact ⟨popRuns_minHeapPop hRoom hSize hPos, by rw [hPop], hRemoved.n, hRemoved.idx,
    hRemoved.perm h ⟨0, hPos, rfl⟩, hRemoved.indexed⟩

/-- Push and pop lose and misplace no event, whatever the order of the endtimes, and
their loops end without leaving the block. The heap is any one with fewer than 2^31 - 1
events, so that its indices stay ints. -/
theorem pushPop_keeps (hIndexed : s.Indexed) (hRoom : s.n ≤ s.a) (hSize : s.n < 2 ^ 31 - 1) :
    (∀ e realloc, ¬ s.Has e → s.PushKeeps e realloc) ∧ (0 < s.n → s.PopKeeps) :=
  ⟨fun _ realloc he => hIndexed.pushKeeps hRoom hSize he realloc, hIndexed.popKeeps hRoom hSize⟩

def threeTimers : Timers := ⟨id, 3, 8, fun e => { endtime := ⟨0, e⟩, minHeapIdx := e }⟩

/-- A fourth event is sifted up to the root. -/
theorem threeTimers_push : (threeTimers.minHeapPush 3 true).2.p 0 = 3 := by
  rw [minHeapPush, minHeapReserve, if_neg (by decide)]
  change (minHeapShiftUp { threeTimers with n := 4 } 3 3).p 0 = 3
  rw [minHeapShiftUp, if_pos (by decide), minHeapShiftUp, if_pos (by decide), minHeapShiftUp]
  rfl

/-- Behind a pop another event has moved to the root, and the last one is sifted down below it. -/
theorem threeTimers_pop : threeTimers.minHeapPop.2.p 0 = 1 ∧ threeTimers.minHeapPop.2.p 1 = 2 := by
  rw [minHeapPop, if_neg (by decide)]
  change (minHeapShiftDown { threeTimers with n := 2 } 0 2).p 0 = 1 ∧
    (minHeapShiftDown { threeTimers with n := 2 } 0 2).p 1 = 2
  rw [minHeapShiftDown, if_pos (by decide), minHeapShiftDown, if_neg (by decide)]
  exact ⟨rfl, rfl⟩

theorem pushPop_keeps_threeTimers :
    (threeTimers.PushKeeps 3 true ∧ (threeTimers.minHeapPush 3 true).2.p 0 = 3) ∧
      threeTimers.PopKeeps ∧ threeTimers.minHeapPop.2.p 0 = 1 ∧ threeTimers.minHeapPop.2.p 1 = 2 := by
  obtain ⟨hPush, hPop⟩ := pushPop_keeps (s := threeTimers) (fun _ _ => rfl) (by decide) (by decide)
  refine ⟨⟨hPush 3 true ?_, threeTimers_push⟩, hPop (by decide), threeTimers_pop⟩
  rintro ⟨i, hi, rfl⟩
  exact absurd hi (by decide)

end Machine

section Erase

/-- A removal takes `e` out of the slots and moves no other event out of them. -/
structure ErasesOnly (s : Timers) (e : Nat) : Prop where
  n : (s.minHeapErase e).n = s.n - 1
  perm : (e :: (s.minHeapErase e).events).Perm s.events
  indexed : (s.minHeapErase e).Indexed
  idx : ((s.minHeapErase e).ev e).minHeapIdx = -1

/-- An event in the last slot compares equal with its parent. -/
def Erasable (s : Timers) (e : Nat) : Prop :=
  (s.ev e).minHeapIdx = (s.n : Int) - 1 → 1 < s.n → ¬ s.elemGreater (s.p (parent (s.n - 1))) e

/-- The calls of a user of the heap, who may assign an endtime at any time. -/
inductive HeapOp where
  | push (e : Nat) (realloc : Bool)
  | pop
  | erase (e : Nat)
  | assign (e : Nat) (endtime : LtTime)

def op (s : Timers) : HeapOp → Timers
  | .push e realloc => (s.minHeapPush e realloc).2
  | .pop => s.minHeapPop.2
  | .erase e => s.minHeapErase e
  | .assign e endtime => s.setEndtime e endtime

/-- Only events that are not in the heap are pushed, and only events in it are erased. -/
def Allowed (s : Timers) : HeapOp → Prop
  | .push e _ => ¬ s.Has e
  | .pop => True
  | .erase e => s.Has e
  | .assign _ _ => True

def Spares (s : Timers) : HeapOp → Prop
  | .erase e => s.Erasable e
  | _ => True

variable {s : Timers}

theorem Indexed.removed_of_erasable (h : s.Indexed) {e : Nat} (he : s.Has e) (hErasable : s.Erasable e) :
    s.Removed e (s.minHeapErase e) := by
  obtain ⟨i, hi, rfl⟩ := he
  refine h.removed_erase hi fun hPos hGreater => ?_
  by_contra hNot
  obtain rfl : i = s.n - 1 := by omega
  exact hErasable (by rw [h _ hi]; omega) (by omega) hGreater

/-- The event of a sift up ends in a slot at or above the hole. -/
theorem exists_minHeapShiftUp (s : Timers) (hole e : Nat) : ∃ i, i ≤ hole ∧ (s.minHeapShiftUp hole e).p i = e := by
  induction s, hole using minHeapShiftUp.induct (e := e) with
  | case1 s hole hMove ih =>
      obtain ⟨i, hi, hPlace⟩ := ih
      have hLt := parent_lt (Nat.pos_of_ne_zero hMove.1)
      rw [minHeapShiftUp, if_pos hMove]
      exact ⟨i, by omega, hPlace⟩
  | case2 s hole hStay =>
      rw [minHeapShiftUp, if_neg hStay]
      exact ⟨hole, Nat.le_refl _, by rw [p_put, Function.update_self]⟩

theorem n_minHeapShiftUp (s : Timers) (hole e : Nat) : (s.minHeapShiftUp hole e).n = s.n := by
  induction s, hole using minHeapShiftUp.induct (e := e) with
  | case1 s hole hMove ih => rw [minHeapShiftUp, if_pos hMove, ih, n_put]
  | case2 s hole hStay => rw [minHeapShiftUp, if_neg hStay, n_put]

/-- The last event is sifted up again when its parent compares different. -/
theorem Indexed.has_erased (h : s.Indexed) {e : Nat} (he : s.Has e) (hNot : ¬ s.Erasable e) :
    (s.minHeapErase e).Has e := by
  obtain ⟨i, hi, rfl⟩ := he
  simp only [Erasable, Classical.not_imp, not_not] at hNot
  obtain ⟨hIdx, hTwo, hGreater⟩ := hNot
  obtain rfl : i = s.n - 1 := by
    rw [h i hi] at hIdx
    omega
  have hPos : 0 < s.n - 1 := by omega
  have hLt := parent_lt hPos
  rw [minHeapErase_up (h _ hi) hPos hGreater, minHeapShiftUp, if_pos ⟨hPos.ne', hGreater⟩]
  obtain ⟨j, hj, hPlace⟩ := exists_minHeapShiftUp
    (({ s with n := s.n - 1 } : Timers).put (s.n - 1) (s.p (parent (s.n - 1)))) (parent (s.n - 1)) (s.p (s.n - 1))
  refine ⟨j, ?_, hPlace⟩
  rw [n_setIdx, n_minHeapShiftUp, n_put]
  exact hj.trans_lt hLt

theorem Indexed.erasesOnly_iff (h : s.Indexed) {e : Nat} (he : s.Has e) : s.ErasesOnly e ↔ s.Erasable e := by
  constructor
  · intro hErases
    by_contra hNot
    have hNodup := hErases.perm.nodup_iff.mpr h.nodup
    exact (List.nodup_cons.mp hNodup).1 (mem_events.mpr (h.has_erased he hNot))
  · intro hErasable
    have hRemoved := h.removed_of_erasable he hErasable
    exact ⟨hRemoved.n, hRemoved.perm h he, hRemoved.indexed, hRemoved.idx⟩

/-- The events keep their positions under every call but the removal of an event that is not erasable. -/
theorem Indexed.op (h : s.Indexed) (c : HeapOp) (hAllowed : s.Allowed c) (hSpares : s.Spares c) :
    (s.op c).Indexed := by
  cases c with
  | push e realloc =>
      rcases minHeapPush_cases s e realloc with hPush | ⟨-, a, hPush⟩
      · rw [Timers.op, hPush]
        exact h
      · rw [Timers.op, hPush]
        exact (h.pushed hAllowed a).indexed
  | pop =>
      rcases Nat.eq_zero_or_pos s.n with hNone | hPos
      · rw [Timers.op, minHeapPop, if_pos hNone]
        exact h
      · rw [Timers.op, minHeapPop, if_neg hPos.ne']
        exact (h.removed_down hPos).indexed
  | erase e => exact (h.removed_of_erasable hAllowed hSpares).indexed
  | assign e endtime =>
      intro i hi
      rw [Timers.op, idx_setEndtime]
      exact h i hi

theorem indexed_of_run (p : Nat → Nat) (ev : Nat → EventT) {s : Timers}
    (hRun : Run.Reach op (fun s c => s.Allowed c ∧ s.Spares c) (minHeapConstructor p ev) s) : s.Indexed :=
  hRun.all (wellFormed_constructor p ev).indexed fun _ c h hGuard => h.op c hGuard.1 hGuard.2

/-- In a heap reached without the removal of an event that is not erasable, a removal
takes out its event and no other exactly if the event is erasable. This is decided by
where the event stands, before the heap is touched. -/
theorem erasesOnly_iff_of_run (p : Nat → Nat) (ev : Nat → EventT) {s : Timers}
    (hRun : Run.Reach op (fun s c => s.Allowed c ∧ s.Spares c) (minHeapConstructor p ev) s) {e : Nat}
    (he : s.Has e) : s.ErasesOnly e ↔ s.Erasable e :=
  (indexed_of_run p ev hRun).erasesOnly_iff he

/-- Two events with different endtimes: the second one is sifted up to the root. -/
def twoPushes : Timers :=
  ((minHeapConstructor (fun _ => 0) fun e => { endtime := ⟨0, e⟩ }).op (.push 0 true)).op (.push 1 true)

theorem onePush_eq : (minHeapConstructor (fun _ => 0) fun e => { endtime := ⟨0, e⟩ }).op (.push 0 true) =
    ⟨Function.update (fun _ => 0) 0 0, 1, 8,
      Function.update (fun e => { endtime := ⟨0, e⟩ }) 0 { endtime := ⟨0, 0⟩ }⟩ := by
  simp [op, minHeapPush, minHeapReserve, minHeapConstructor, minHeapShiftUp, put, setIdx]

theorem twoPushes_slots : twoPushes.n = 2 ∧ twoPushes.p 0 = 1 ∧ twoPushes.p 1 = 0 ∧ (twoPushes.ev 0).minHeapIdx = 1 ∧
    (twoPushes.ev 0).endtime = ⟨0, 0⟩ ∧ (twoPushes.ev 1).endtime = ⟨0, 1⟩ := by
  rw [twoPushes, onePush_eq]
  simp [op, minHeapPush, minHeapReserve, minHeapShiftUp, put, setIdx, parent, elemGreater, ltTimeASubB, wrap64]

theorem twoPushes_run : Run.Reach op (fun s c => s.Allowed c ∧ s.Spares c)
    (minHeapConstructor (fun _ => 0) fun e => { endtime := ⟨0, e⟩ }) twoPushes := by
  refine .next (HeapOp.push 1 true) (.next (HeapOp.push 0 true) .start ⟨?_, trivial⟩) ⟨?_, trivial⟩
  · exact fun ⟨_, hi, _⟩ => absurd hi (Nat.not_lt_zero _)
  · rintro ⟨i, hi, hSame⟩
    rw [onePush_eq] at hi hSame
    obtain rfl : i = 0 := Nat.lt_one_iff.mp hi
    exact absurd hSame Nat.zero_ne_one

/-- The event in the last slot stays, and the event above it is lost. -/
theorem not_erasesOnly_of_run :
    ¬ ∀ (p : Nat → Nat) (ev : Nat → EventT) (s : Timers), Run.Reach op Allowed (minHeapConstructor p ev) s →
      ∀ e, s.Has e → s.ErasesOnly e := by
  intro hClaim
  obtain ⟨hN, hFirst, hSecond, hIdx, hEnd, hEnd'⟩ := twoPushes_slots
  have hHas : twoPushes.Has 0 := ⟨1, by rw [hN]; decide, hSecond⟩
  have hIndexed := indexed_of_run _ _ twoPushes_run
  have hErases := hClaim _ _ _ (twoPushes_run.mono fun _ _ hGuard => hGuard.1) 0 hHas
  refine (hIndexed.erasesOnly_iff hHas).mp hErases (by rw [hIdx, hN]; rfl) (by rw [hN]; decide) ?_
  rw [hN, show parent (2 - 1) = 0 from rfl, hFirst, elemGreater, hEnd, hEnd']
  decide

theorem erasesOnly_iff_of_run_twoPushes : twoPushes.ErasesOnly 1 := by
  obtain ⟨hN, hFirst, -⟩ := twoPushes_slots
  refine (erasesOnly_iff_of_run _ _ twoPushes_run ⟨0, by rw [hN]; decide, hFirst⟩).mpr fun hLast => ?_
  have hIndexed := indexed_of_run _ _ twoPushes_run
  have hIdx := hIndexed 0 (by rw [hN]; decide)
  rw [hFirst, hLast, hN] at hIdx
  exact absurd hIdx (by decide)

end Erase

end Timers
end Leactor
