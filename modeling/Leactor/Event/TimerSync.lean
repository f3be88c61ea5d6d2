import Leactor.Event.Base

/-! The events and the timer heap over the calls that arm and disarm them. -/
namespace Leactor

open BinHeap

namespace Timers

def Least (s : Timers) : Prop := ∀ x, s.Has x → s.keys 0 ≤ s.time x

structure SameHeap (s s' : Timers) : Prop where
  p : s'.p = s.p
  n : s'.n = s.n
  idx : ∀ x, (s'.ev x).minHeapIdx = (s.ev x).minHeapIdx
  endtime : ∀ x, (s'.ev x).endtime = (s.ev x).endtime

/-- Every comparison on the way up from a position takes `e` further, to the root. -/
inductive Climbs (s : Timers) (e : Nat) : Nat → Prop where
  | root : Climbs s e 0
  | step {hole : Nat} (hPos : 0 < hole) (hGreater : s.elemGreater (s.p (parent hole)) e)
      (hRest : Climbs s e (parent hole)) : Climbs s e hole

/-- The event at the root after `e` has been sifted down from there. -/
def sinkRoot (s : Timers) (e : Nat) : Nat :=
  if 2 ≤ s.n ∧ s.elemGreater e (s.p (s.minChild 0)) then s.p (s.minChild 0) else e

variable {s s' : Timers} {e hole : Nat}

theorem SameHeap.refl (s : Timers) : s.SameHeap s := ⟨rfl, rfl, fun _ => rfl, fun _ => rfl⟩

theorem SameHeap.has (h : s.SameHeap s') (x : Nat) : s'.Has x ↔ s.Has x := by
  rw [Has, Has, h.n, h.p]

theorem SameHeap.time (h : s.SameHeap s') (x : Nat) : s'.time x = s.time x := by
  rw [Timers.time, h.endtime]
  rfl

theorem SameHeap.indexed (h : s.SameHeap s') (hIndexed : s.Indexed) : s'.Indexed := by
  intro i hi
  rw [h.p, h.idx]
  exact hIndexed i (h.n ▸ hi)

theorem SameHeap.least (h : s.SameHeap s') (hLeast : s.Least) : s'.Least := by
  intro x hx
  rw [keys, h.p, h.time, h.time]
  exact hLeast x ((h.has x).mp hx)

theorem Climbs.frame (h : s.Climbs e hole) (hEnd : ∀ x, (s'.ev x).endtime = (s.ev x).endtime)
    (hp : ∀ i, i < hole → s'.p i = s.p i) : s'.Climbs e hole := by
  induction h with
  | root => exact .root
  | step hPos hGreater _ ih =>
      have hLt := parent_lt hPos
      refine .step hPos ?_ (ih fun i hi => hp i (hi.trans hLt))
      rw [elemGreater, hp _ hLt, hEnd, hEnd]
      exact hGreater

/-- A sift up ends at the root exactly if the event climbs there, that is, if every
comparison on its way says so. Otherwise the root stays. -/
theorem root_minHeapShiftUp (s : Timers) (hole e : Nat) :
    (s.Climbs e hole → (s.minHeapShiftUp hole e).p 0 = e) ∧
      (¬ s.Climbs e hole → (s.minHeapShiftUp hole e).p 0 = s.p 0) := by
  induction s, hole using minHeapShiftUp.induct (e := e) with
  | case1 s hole hMove ih =>
      have hPos : 0 < hole := by omega
      have hEnd := (sameEvents_put s hole (s.p (parent hole))).endtime
      have hp : ∀ i, i < parent hole → (s.put hole (s.p (parent hole))).p i = s.p i := by
        intro i hi
        have hLt := parent_lt hPos
        rw [p_put, Function.update_of_ne (by omega)]
      rw [minHeapShiftUp, if_pos hMove]
      constructor
      · intro hClimbs
        cases hClimbs with
        | root => omega
        | step _ _ hRest => exact ih.1 (hRest.frame hEnd hp)
      · intro hNot
        rw [ih.2 fun hRest => hNot (.step hPos hMove.2
          (hRest.frame (fun x => (hEnd x).symm) fun i hi => (hp i hi).symm)), p_put, Function.update_of_ne (by omega)]
  | case2 s hole hStay =>
      rw [minHeapShiftUp, if_neg hStay, p_put]
      constructor
      · intro hClimbs
        cases hClimbs with
        | root => exact Function.update_self _ _ _
        | step hPos hGreater _ => exact absurd ⟨by omega, hGreater⟩ hStay
      · intro hNot
        rw [Function.update_of_ne]
        rintro rfl
        exact hNot .root

/-- A sift down leaves the positions above the hole alone. -/
theorem above_minHeapShiftDown (s : Timers) (hole e : Nat) {i : Nat} (hi : i < hole) :
    (s.minHeapShiftDown hole e).p i = s.p i := by
  induction s, hole using minHeapShiftDown.induct (e := e) with
  | case1 s hole hMove ih =>
      have hEq := s.minChild_eq hole
      rw [minHeapShiftDown, if_pos hMove, ih (by omega), p_put, Function.update_of_ne (by omega)]
  | case2 s hole hStay =>
      rw [minHeapShiftDown, if_neg hStay, p_put, Function.update_of_ne (by omega)]

theorem root_minHeapShiftDown (s : Timers) (e : Nat) : (s.minHeapShiftDown 0 e).p 0 = s.sinkRoot e := by
  have hEq := s.minChild_eq 0
  rw [minHeapShiftDown, sinkRoot]
  split_ifs with hMove
  · rw [above_minHeapShiftDown _ _ _ (by omega), p_put, Function.update_self]
  · rw [p_put, Function.update_self]

/-- What arming an event that was not in the heap leaves behind. -/
structure Armed (s : Timers) (e : Nat) (s' : Timers) : Prop where
  indexed : s'.Indexed
  others : ∀ x, x ≠ e → (s'.Has x ↔ s.Has x)
  self : (s'.ev e).minHeapIdx ≠ -1 ↔ s'.Has e
  off : ∀ x, x ≠ e → ¬ s'.Has x → (s'.ev x).minHeapIdx = (s.ev x).minHeapIdx
  least : s'.Least

theorem Indexed.idx_ne (h : s.Indexed) {x : Nat} (hx : s.Has x) : (s.ev x).minHeapIdx ≠ -1 := by
  obtain ⟨i, hi, rfl⟩ := hx
  rw [h i hi]
  omega

/-- The heap before and the one behind may be changed in the other fields. -/
theorem Armed.sameHeap {t t' : Timers} (h : s.Armed e s') (hBefore : t.SameHeap s) (hBehind : s'.SameHeap t') :
    t.Armed e t' where
  indexed := hBehind.indexed h.indexed
  others x hx := by rw [hBehind.has, h.others x hx, hBefore.has]
  self := by
    rw [hBehind.idx, hBehind.has]
    exact h.self
  off x hx hOff := by
    rw [hBehind.idx, h.off x hx (mt (hBehind.has x).mpr hOff), hBefore.idx]
  least := hBehind.least h.least

/-- An event outside the heap whose index is set to -1. -/
theorem Indexed.setIdx (h : s.Indexed) (he : ¬ s.Has e) : (s.setIdx e (-1)).Indexed := by
  intro i hi
  rw [p_setIdx, ev_setIdx_other _ _ fun hSame => he ⟨i, hi, hSame⟩]
  exact h i hi

theorem least_setIdx (h : s.Least) (e : Nat) (idx : Int) : (s.setIdx e idx).Least := by
  intro x hx
  rw [keys_setIdx, (sameEvents_setIdx s e idx).time]
  exact h x hx

theorem Indexed.armed_none (h : s.Indexed) (hLeast : s.Least) (he : ¬ s.Has e) :
    s.Armed e (s.setIdx e (-1)) where
  indexed := h.setIdx he
  others _ _ := Iff.rfl
  self := by
    rw [ev_setIdx_same]
    exact ⟨fun hNot => absurd rfl hNot, fun hHas => absurd hHas he⟩
  off x hx _ := by rw [ev_setIdx_other _ _ hx]
  least := least_setIdx hLeast e (-1)

theorem time_setEndtime (s : Timers) (e : Nat) (endtime : LtTime) :
    (s.setEndtime e endtime).time e = endtime.total := by
  simp [setEndtime, Timers.time]

/-- An event that got no place in the heap is assigned an endtime. -/
theorem Armed.setEndtime (h : s.Armed e s') (he : ¬ s'.Has e) (endtime : LtTime) :
    s.Armed e (s'.setEndtime e endtime) where
  indexed i hi := by
    rw [idx_setEndtime]
    exact h.indexed i hi
  others := h.others
  self := by
    rw [idx_setEndtime]
    exact h.self
  off x hx hOff := by
    rw [idx_setEndtime]
    exact h.off x hx hOff
  least x hx := by
    obtain ⟨i, hi, rfl⟩ := hx
    have hOther : ∀ j, j < s'.n → (s'.setEndtime e endtime).time (s'.p j) = s'.time (s'.p j) := by
      intro j hj
      rw [time, ev_setEndtime_other _ _ fun hSame => he ⟨j, hj, hSame⟩]
      rfl
    change (s'.setEndtime e endtime).time (s'.p 0) ≤ (s'.setEndtime e endtime).time (s'.p i)
    rw [hOther 0 (Nat.zero_lt_of_lt hi), hOther i hi]
    exact h.least _ ⟨i, hi, rfl⟩

/-- The index of the event may have been set before. -/
theorem Armed.of_setIdx {idx : Int} (h : (s.setIdx e idx).Armed e s') : s.Armed e s' where
  indexed := h.indexed
  others := h.others
  self := h.self
  off x hx hOff := by rw [h.off x hx hOff, ev_setIdx_other _ _ hx]
  least := h.least

/-- The endtime that arming assigns after the push suits the place the event got. -/
def ArmFits (s : Timers) (e : Nat) (endtime : LtTime) : Prop :=
  (s.Climbs e s.n → ∀ x, s.Has x → endtime.total ≤ s.time x) ∧
    (¬ s.Climbs e s.n → s.keys 0 ≤ endtime.total)

theorem ArmFits.frame {endtime : LtTime} (h : s.ArmFits e endtime) (hp : s'.p = s.p) (hn : s'.n = s.n)
    (hEnd : ∀ x, (s'.ev x).endtime = (s.ev x).endtime) : s'.ArmFits e endtime := by
  have hTime : ∀ x, s'.time x = s.time x := fun x => congrArg LtTime.total (hEnd x)
  have hClimbs : s'.Climbs e s'.n ↔ s.Climbs e s.n := by
    rw [hn]
    exact ⟨fun hC => hC.frame (fun x => (hEnd x).symm) fun i _ => by rw [hp], fun hC => hC.frame hEnd fun i _ => by rw [hp]⟩
  rw [ArmFits, hClimbs, keys, hp, hTime]
  refine ⟨fun hC x hx => ?_, h.2⟩
  rw [hTime]
  rw [Has, hp, hn] at hx
  exact h.1 hC x hx

/-- An event is pushed, and its endtime is assigned afterwards. As the sift has compared
the old one, the new one fits only if it is the least where the event went to the root,
and not below the root where it did not. -/
theorem Indexed.armed_push (h : s.Indexed) (hLeast : s.Least) (he : ¬ s.Has e) {endtime : LtTime}
    (hFits : s.ArmFits e endtime) (a : Nat) :
    s.Armed e ((minHeapShiftUp { s with n := s.n + 1, a := a } s.n e).setEndtime e endtime) := by
  have hPushed := h.pushed he a
  have hRoot := root_minHeapShiftUp { s with n := s.n + 1, a := a } s.n e
  generalize minHeapShiftUp { s with n := s.n + 1, a := a } s.n e = s' at hPushed hRoot
  have hSelf : s'.Has e := (hPushed.has e).mpr (Or.inl rfl)
  have hTime : ∀ x, x ≠ e → (s'.setEndtime e endtime).time x = s.time x := by
    intro x hx
    rw [time, ev_setEndtime_other _ _ hx]
    exact hPushed.same.time x
  refine ⟨fun i hi => ?_, fun x hx => ?_, ⟨fun _ => hSelf, fun _ => ?_⟩, fun x hx hOff => ?_, fun x hx => ?_⟩
  · rw [idx_setEndtime]
    exact hPushed.indexed i hi
  · exact (hPushed.has x).trans (or_iff_right hx)
  · rw [idx_setEndtime]
    exact hPushed.indexed.idx_ne hSelf
  · rw [idx_setEndtime, hPushed.off x hOff]
  · -- the root is the new event, or the old root
    have hOld : x ≠ e → s.Has x := fun hNe => ((hPushed.has x).mp hx).resolve_left hNe
    change (s'.setEndtime e endtime).time (s'.p 0) ≤ _
    by_cases hClimbs : s.Climbs e s.n
    · rw [hRoot.1 (hClimbs.frame (fun _ => rfl) fun _ _ => rfl), time_setEndtime]
      by_cases hNe : x = e
      · rw [hNe, time_setEndtime]
      · rw [hTime x hNe]
        exact hFits.1 hClimbs x (hOld hNe)
    · have hSome : 0 < s.n := Nat.pos_of_ne_zero fun hNone => hClimbs (by rw [hNone]; exact .root)
      have hNe : s.p 0 ≠ e := fun hSame => he ⟨0, hSome, hSame⟩
      rw [hRoot.2 fun hNot => hClimbs (hNot.frame (fun _ => rfl) fun _ _ => rfl), hTime _ hNe]
      by_cases hx' : x = e
      · rw [hx', time_setEndtime]
        exact hFits.2 hClimbs
      · rw [hTime x hx']
        exact hLeast x (hOld hx')

/-- The sift of a removal does not take the event in again, and leaves a least event at the root. -/
def RemoveFits (s : Timers) (e : Nat) : Prop :=
  let t : Timers := { s with n := s.n - 1 }
  let last := s.p (s.n - 1)
  let i := (s.ev e).minHeapIdx.toNat
  if i = 0 then ∀ x, s.Has x → x ≠ e → s.time (t.sinkRoot last) ≤ s.time x
  else s.elemGreater (s.p (parent i)) last → e ≠ last ∧ (t.Climbs last i → s.time last ≤ s.keys 0)

/-- A removal of an event in the heap keeps the least one at the root, if the event that
replaces it fits. Nothing is said of the order further down. -/
theorem Indexed.removed_least (h : s.Indexed) (hLeast : s.Least) (he : s.Has e) (hFits : s.RemoveFits e) :
    s.Removed e (s.minHeapErase e) ∧ (s.minHeapErase e).Least := by
  obtain ⟨i, hi, rfl⟩ := he
  have hIdx := h i hi
  simp only [RemoveFits, hIdx, Int.toNat_natCast] at hFits
  have hRemoved : s.Removed (s.p i) (s.minHeapErase (s.p i)) := by
    refine h.removed_erase hi fun hPos hGreater => ?_
    rw [if_neg (by omega)] at hFits
    have hNe := (hFits hGreater).1
    by_contra hLast
    exact hNe (by rw [show i = s.n - 1 by omega])
  refine ⟨hRemoved, fun x hx => ?_⟩
  obtain ⟨hOld, hNe⟩ := (hRemoved.has x).mp hx
  rw [keys, hRemoved.same.time, hRemoved.same.time]
  rcases Nat.eq_zero_or_pos i with rfl | hPos
  · rw [if_pos rfl] at hFits
    rw [minHeapErase_down hIdx fun hNot => absurd hNot.1 (lt_irrefl 0), p_setIdx, root_minHeapShiftDown]
    exact hFits x hOld hNe
  · rw [if_neg (by omega)] at hFits
    by_cases hGreater : s.elemGreater (s.p (parent i)) (s.p (s.n - 1))
    · rw [minHeapErase_up hIdx hPos hGreater, p_setIdx]
      have hRoot := root_minHeapShiftUp { s with n := s.n - 1 } i (s.p (s.n - 1))
      by_cases hClimbs : ({ s with n := s.n - 1 } : Timers).Climbs (s.p (s.n - 1)) i
      · rw [hRoot.1 hClimbs]
        exact ((hFits hGreater).2 hClimbs).trans (hLeast x hOld)
      · rw [hRoot.2 hClimbs]
        exact hLeast x hOld
    · rw [minHeapErase_down hIdx fun hNot => hGreater hNot.2, p_setIdx, above_minHeapShiftDown _ _ _ hPos]
      exact hLeast x hOld

end Timers
/-- The base in a run, and the events removed and not armed again since. -/
structure Watched where
  base : Base
  removed : Set Nat

namespace Watched

def step (w : Watched) (c : IoCall) : Watched where
  base := w.base.io c
  removed :=
    match c with
    | .add _ _ _ _ => w.removed \ {w.base.fresh}
    | .mod e _ _ _ _ => w.removed \ {e}
    | .remove e => insert e w.removed

structure InSync (w : Watched) : Prop where
  once : ∀ i j, i < w.base.n → j < w.base.n → w.base.p i = w.base.p j → i = j
  known : ∀ e, w.base.Has e → e < w.base.fresh
  placed : ∀ e, e < w.base.fresh → ((w.base.ev e).minHeapIdx ≠ -1 ↔ w.base.Has e)
  index : ∀ i, i < w.base.n → (w.base.ev (w.base.p i)).minHeapIdx = i
  gone : ∀ e, e ∈ w.removed → ¬ w.base.Has e
  least : ∀ e, w.base.Has e → w.base.time (w.base.p 0) ≤ w.base.time e

/-- A call arms or changes only events that are not armed, with an endtime that
suits the place that the sift with the old endtime chose, and a removal sifts
rightly where it touches the root. -/
def Fits (w : Watched) : IoCall → Prop
  | .add _ timeout now realloc =>
      0 ≤ timeout → (w.base.a < w.base.n + 1 → realloc = true) →
        w.base.ArmFits w.base.fresh (ltTimeAddition now timeout)
  | .mod e _ timeout now realloc =>
      (w.base.ev e).minHeapIdx = -1 ∧
        (0 ≤ timeout → (w.base.a < w.base.n + 1 → realloc = true) →
          w.base.ArmFits e (ltTimeAddition now timeout))
  | .remove e => (w.base.ev e).minHeapIdx ≠ -1 → w.base.RemoveFits e

end Watched

namespace Base

open Timers

theorem sameHeap_modify (b : Base) (e : Nat) (g : EventT → EventT) (hIdx : (g (b.ev e)).minHeapIdx = (b.ev e).minHeapIdx)
    (hEnd : (g (b.ev e)).endtime = (b.ev e).endtime) : b.SameHeap (b.modify e g).toTimers where
  p := rfl
  n := rfl
  idx x := by
    by_cases hx : x = e
    · simp [modify, hx, hIdx]
    · simp [modify, hx]
  endtime x := by
    by_cases hx : x = e
    · simp [modify, hx, hEnd]
    · simp [modify, hx]

/-- An event outside the heap is given a timeout or none. -/
theorem armed_setTimeout {b : Base} (h : b.Indexed) (hLeast : b.Least) {e : Nat} (he : ¬ b.Has e) {timeout : Int}
    {now : LtTime} {realloc : Bool}
    (hFits : 0 ≤ timeout → (b.a < b.n + 1 → realloc = true) → b.ArmFits e (ltTimeAddition now timeout)) :
    b.Armed e (b.setTimeout e timeout now realloc).toTimers := by
  have hNone := h.armed_none hLeast he
  unfold setTimeout
  split_ifs with hTimeout
  · simp only [ltTimeoutAdd, minHeapElemInit]
    rcases minHeapPush_cases (b.toTimers.setIdx e (-1)) e realloc with hPush | ⟨hRoom, a, hPush⟩
    · rw [hPush]
      exact hNone.setEndtime he _
    · rw [hPush]
      have hFits' : (b.toTimers.setIdx e (-1)).ArmFits e (ltTimeAddition now timeout) :=
        (hFits hTimeout hRoom).frame rfl rfl (sameEvents_setIdx _ _ _).endtime
      exact ((h.setIdx he).armed_push (least_setIdx hLeast e (-1)) he hFits' a).of_setIdx
  · exact hNone

end Base

namespace Watched

open Timers Base

/-- Arming or changing one event keeps the events and the heap in agreement. -/
theorem InSync.armed {w w' : Watched} {e : Nat} (h : w.InSync) (hArmed : w.base.Armed e w'.base.toTimers)
    (hFresh : ∀ x, x < w'.base.fresh ↔ x = e ∨ x < w.base.fresh) (hGone : w'.removed = w.removed \ {e}) :
    w'.InSync where
  once i j hi hj hSame := hArmed.indexed.inj hi hj hSame
  known x hx := by
    rw [hFresh]
    by_cases hNe : x = e
    · exact Or.inl hNe
    · exact Or.inr (h.known x ((hArmed.others x hNe).mp hx))
  placed x hx := by
    by_cases hNe : x = e
    · rw [hNe]
      exact hArmed.self
    · have hOld := (hFresh x).mp hx
      refine ⟨fun hIdx => by_contra fun hOff => ?_, hArmed.indexed.idx_ne⟩
      rw [hArmed.off x hNe hOff, h.placed x (hOld.resolve_left hNe), ← hArmed.others x hNe] at hIdx
      exact hOff hIdx
  index := hArmed.indexed
  gone x hx := by
    rw [hGone] at hx
    rw [hArmed.others x hx.2]
    exact h.gone x hx.1
  least := hArmed.least

/-- So does taking one event out. The event has no index behind it, and every other
event keeps its own. -/
theorem InSync.taken {w : Watched} {e : Nat} {s : Timers} {b : Base} (h : w.InSync) (hSame : s.SameHeap b.toTimers)
    (hFresh : b.fresh = w.base.fresh) (hIndexed : s.Indexed) (hHas : ∀ x, s.Has x ↔ w.base.Has x ∧ x ≠ e)
    (hIdx : (s.ev e).minHeapIdx = -1) (hOff : ∀ x, ¬ w.base.Has x → (s.ev x).minHeapIdx = (w.base.ev x).minHeapIdx)
    (hLeast : s.Least) : (Watched.mk b (insert e w.removed)).InSync where
  once i j hi hj hEq := (hSame.indexed hIndexed).inj hi hj hEq
  known x hx := by
    rw [hSame.has, hHas] at hx
    rw [hFresh]
    exact h.known x hx.1
  placed x hx := by
    rw [hFresh] at hx
    rw [hSame.idx, hSame.has, hHas]
    refine ⟨fun hNot => ?_, fun hx' => hIndexed.idx_ne ((hHas x).mpr hx')⟩
    have hNe : x ≠ e := by
      rintro rfl
      exact hNot hIdx
    refine ⟨by_contra fun hOld => ?_, hNe⟩
    rw [hOff x hOld, h.placed x hx] at hNot
    exact hOld hNot
  index := hSame.indexed hIndexed
  gone x hx := by
    rw [hSame.has, hHas]
    rintro ⟨hOld, hNe⟩
    exact h.gone x (hx.resolve_left hNe) hOld
  least := hSame.least hLeast

/-- A call that fits keeps the events and the heap in agreement, one case for each call.
That the call is legal is what its caller owes. -/
theorem InSync.step {w : Watched} (h : w.InSync) (c : IoCall) (hLegal : w.base.Legal c) (hFits : w.Fits c) :
    (w.step c).InSync := by
  cases c with
  | add flag timeout now realloc =>
      have hOff : ¬ w.base.Has w.base.fresh := fun hHas => lt_irrefl _ (h.known _ hHas)
      have hSame : w.base.SameHeap (w.base.ltNewEvent.2.ltEvInit w.base.fresh flag 0).toTimers :=
        sameHeap_modify w.base.ltNewEvent.2 _ _ rfl rfl
      have hArmed := armed_setTimeout (hSame.indexed h.index) (hSame.least h.least) (mt (hSame.has _).mp hOff)
        fun hTimeout hRoom => (hFits hTimeout hRoom).frame hSame.p hSame.n hSame.endtime
      refine h.armed (hArmed.sameHeap hSame (.refl _)) (fun x => ?_) rfl
      change x < (Base.setTimeout _ _ _ _ _).fresh ↔ _
      rw [fresh_setTimeout]
      exact Nat.lt_succ_iff_lt_or_eq.trans or_comm
  | mod e flag timeout now realloc =>
      have hOff : ¬ w.base.Has e := fun hHas => (h.placed e hLegal.1).mpr hHas hFits.1
      have hArmed := armed_setTimeout h.index h.least hOff hFits.2
      refine h.armed (hArmed.sameHeap (.refl _) (sameHeap_modify _ e _ rfl rfl)) (fun x => ?_) rfl
      change x < (Base.setTimeout _ _ _ _ _).fresh ↔ _
      rw [fresh_setTimeout]
      exact ⟨Or.inr, fun hx => hx.elim (fun hSame => hSame ▸ hLegal.1) id⟩
  | remove e =>
      change (Watched.mk (w.base.ltIoRemove e) (insert e w.removed)).InSync
      rw [ltIoRemove]
      split_ifs with hIdx
      · have hHas := (h.placed e hLegal).mp hIdx
        obtain ⟨hRemoved, hLeast⟩ := Indexed.removed_least h.index h.least hHas (hFits hIdx)
        exact h.taken (sameHeap_modify _ e _ rfl rfl) rfl hRemoved.indexed hRemoved.has hRemoved.idx
          (fun x hx => by rw [hRemoved.off x hx]) hLeast
      · have hOff := mt (h.placed e hLegal).mpr hIdx
        refine h.taken (sameHeap_modify _ e _ rfl rfl) rfl h.index (fun x => ⟨fun hx => ⟨hx, ?_⟩, And.left⟩)
          (not_not.mp hIdx) (fun _ _ => rfl) h.least
        rintro rfl
        exact hOff hx

/-- In every run whose calls fit, the events and the timer heap agree: an event has an
index exactly while it stands in the heap, once, and the root is the least. What fits is
decided by the base before the call. -/
theorem inSync_of_run (p : Nat → Nat) (ev : Nat → EventT) (tail : Option Nat) {w : Watched}
    (hRun : Run.Reach Watched.step (fun w c => w.base.Legal c ∧ w.Fits c) ⟨ltBaseInit p ev tail, ∅⟩ w) :
    w.InSync := by
  refine hRun.all ?_ fun _ c h hGuard => h.step c hGuard.1 hGuard.2
  exact ⟨fun i _ hi => absurd hi (Nat.not_lt_zero i), fun _ ⟨i, hi, _⟩ => absurd hi (Nat.not_lt_zero i),
    fun e he => absurd he (Nat.not_lt_zero e), fun i hi => absurd hi (Nat.not_lt_zero i),
    fun _ hx => absurd hx (Set.notMem_empty _), fun _ ⟨i, hi, _⟩ => absurd hi (Nat.not_lt_zero i)⟩

def firstAdd : Base := (ltBaseInit (fun _ => 0) (fun _ => {}) none).io (.add 0 5 ⟨0, 0⟩ true)

theorem firstAdd_heap : firstAdd.n = 1 ∧ firstAdd.p 0 = 0 ∧ (firstAdd.ev 0).minHeapIdx = 0 ∧ firstAdd.fresh = 1 := by
  simp [firstAdd, io, ltIoAdd, ltNewEvent, ltEvInit, Base.modify, Base.setTimeout, ltTimeoutAdd, minHeapElemInit,
    minHeapPush, minHeapReserve, minHeapShiftUp, put, Timers.setIdx, Timers.setEndtime, ltBaseInit, minHeapConstructor]

/-- `lt_io_mod` with `NO_TIMEOUT` leaves an armed event in the heap. -/
theorem not_inSync_of_run :
    ¬ ∀ (p : Nat → Nat) (ev : Nat → EventT) (tail : Option Nat) (w : Watched),
      Run.Reach Watched.step (fun w c => w.base.Legal c) ⟨ltBaseInit p ev tail, ∅⟩ w → w.InSync := by
  intro hClaim
  obtain ⟨hn, hp, -, hFresh⟩ := firstAdd_heap
  have hFirst : Run.Reach Watched.step (fun w c => w.base.Legal c)
      ⟨ltBaseInit (fun _ => 0) (fun _ => {}) none, ∅⟩ ⟨firstAdd, ∅ \ {0}⟩ :=
    .next (IoCall.add 0 5 ⟨0, 0⟩ true) .start (Or.inr (by decide))
  have hSecond := hClaim _ _ _ _
    (.next (IoCall.mod 0 0 noTimeout ⟨0, 0⟩ true) hFirst ⟨by simp [hFresh], Or.inl rfl⟩)
  refine (hSecond.placed 0 (hFresh ▸ Nat.zero_lt_one)).mpr ⟨0, hn ▸ Nat.zero_lt_one, hp⟩ ?_
  simp [Watched.step, io, ltIoMod, Base.modify, Base.setTimeout, noTimeout, Timers.setIdx]

theorem inSync_of_run_addRemove :
    (Watched.mk (firstAdd.ltIoRemove 0) (insert 0 (∅ \ {0}))).InSync := by
  obtain ⟨hn, hp, hIdx, hFresh⟩ := firstAdd_heap
  have hFirst : Run.Reach Watched.step (fun w c => w.base.Legal c ∧ w.Fits c)
      ⟨ltBaseInit (fun _ => 0) (fun _ => {}) none, ∅⟩ ⟨firstAdd, ∅ \ {0}⟩ := by
    refine .next (IoCall.add 0 5 ⟨0, 0⟩ true) .start ⟨Or.inr (by decide), fun _ _ => ⟨?_, ?_⟩⟩
    · exact fun _ x ⟨i, hi, _⟩ => absurd hi (Nat.not_lt_zero i)
    · exact fun hNot => absurd .root hNot
  refine inSync_of_run (fun _ => 0) (fun _ => {}) none
    (.next (IoCall.remove 0) hFirst ⟨hFresh.symm.le, fun _ => ?_⟩)
  simp only [RemoveFits, hIdx, Int.toNat_zero, if_true]
  rintro x ⟨i, hi, rfl⟩ hNe
  obtain rfl : i = 0 := by omega
  exact absurd hp hNe

end Watched
end Leactor
