import Leactor.Event.TimeHeap

/-! `base_t` and the calls of event_lea.c that add, change and remove events. The
registration with epoll is left out: the kernel reports whatever it likes. The events are
taken to be fresh blocks of `lt_alloc`, as the pool promises for 64 of them. -/
namespace Leactor

def lvLag : Nat := 8

def lvOneshot : Nat := 16

def noTimeout : Int := -1

/-- `base_t`: the timer heap, the events handed out so far, which are those below
`fresh`, and `activelist`. -/
structure Base extends Timers where
  fresh : Nat
  head : Option Nat
  tail : Option Nat

def carry (sec nsec : Int) : LtTime :=
  if 1000000000 < nsec then carry (sec + 1) (nsec - 1000000000) else ⟨sec, nsec⟩
termination_by nsec.toNat
decreasing_by omega

def ltTimeAddition (time : LtTime) (timeout : Int) : LtTime :=
  carry time.sec (wrap64 (timeout + time.nsec))

namespace Base

def modify (b : Base) (e : Nat) (g : EventT → EventT) : Base :=
  { b with ev := Function.update b.ev e (g (b.ev e)) }

/-- `lt_base_init`, which leaves `activelist.tail` unset. -/
def ltBaseInit (p : Nat → Nat) (ev : Nat → EventT) (tail : Option Nat) : Base :=
  { Timers.minHeapConstructor p ev with fresh := 0, head := none, tail := tail }

/-- `lt_new_event`. Nothing ever fills the list at `free_ev_head`, so that every
event is a block of its own, with whatever the memory held before. -/
def ltNewEvent (b : Base) : Nat × Base := (b.fresh, { b with fresh := b.fresh + 1 })

def ltEvInit (b : Base) (e flag deleted : Nat) : Base :=
  b.modify e fun ev => { ev with flag := flag, deleted := deleted, nextActiveEv := none }

/-- `lt_timeout_add`, where `lt_gettime` returns `now`. -/
def ltTimeoutAdd (b : Base) (e : Nat) (timeout : Int) (now : LtTime) (realloc : Bool) : LtTime × Base :=
  (ltTimeAddition now timeout, { b with toTimers := ((b.minHeapElemInit e).minHeapPush e realloc).2 })

/-- What `lt_io_add` and `lt_io_mod` do with their timeout. -/
def setTimeout (b : Base) (e : Nat) (timeout : Int) (now : LtTime) (realloc : Bool) : Base :=
  if 0 ≤ timeout then
    let (endtime, b) := b.ltTimeoutAdd e timeout now realloc
    { b with toTimers := b.setEndtime e endtime }
  else { b with toTimers := b.setIdx e (-1) }

def ltIoAdd (b : Base) (flag : Nat) (timeout : Int) (now : LtTime) (realloc : Bool) : Nat × Base :=
  let (e, b) := b.ltNewEvent
  (e, (b.ltEvInit e flag 0).setTimeout e timeout now realloc)

def ltIoMod (b : Base) (e flag : Nat) (timeout : Int) (now : LtTime) (realloc : Bool) : Base :=
  (b.setTimeout e timeout now realloc).modify e fun ev => { ev with flag := flag }

def ltIoRemove (b : Base) (e : Nat) : Base :=
  let b := if (b.ev e).minHeapIdx ≠ -1 then { b with toTimers := b.minHeapErase e } else b
  b.modify e fun ev => { ev with deleted := 1 }

end Base

/-- A call of `lt_io_add`, `lt_io_mod` or `lt_io_remove`, with the time it is
made and the outcome of `realloc`. -/
inductive IoCall where
  | add (flag : Nat) (timeout : Int) (now : LtTime) (realloc : Bool)
  | mod (e flag : Nat) (timeout : Int) (now : LtTime) (realloc : Bool)
  | remove (e : Nat)

namespace Base

def io (b : Base) : IoCall → Base
  | .add flag timeout now realloc => (b.ltIoAdd flag timeout now realloc).2
  | .mod e flag timeout now realloc => b.ltIoMod e flag timeout now realloc
  | .remove e => b.ltIoRemove e

/-- The calls are made on events handed out before, with a timeout or `NO_TIMEOUT`. -/
def Legal (b : Base) : IoCall → Prop
  | .add _ timeout _ _ => timeout = noTimeout ∨ 0 ≤ timeout
  | .mod e _ timeout _ _ => e < b.fresh ∧ (timeout = noTimeout ∨ 0 ≤ timeout)
  | .remove e => e < b.fresh

end Base

def EventT.active (ev : EventT) : Nat × Nat × Option Nat := (ev.flag, ev.deleted, ev.nextActiveEv)

theorem Timers.SameEvents.active {s s' : Timers} (h : s.SameEvents s') (x : Nat) :
    (s'.ev x).active = (s.ev x).active := by
  rw [h x]
  rfl

theorem Timers.active_setEndtime (s : Timers) (e x : Nat) (endtime : LtTime) :
    ((s.setEndtime e endtime).ev x).active = (s.ev x).active := by
  by_cases hx : x = e
  · simp [hx, setEndtime, EventT.active]
  · simp [hx, setEndtime]

namespace Base

open Timers

@[simp] theorem fresh_modify (b : Base) (e : Nat) (g : EventT → EventT) : (b.modify e g).fresh = b.fresh := rfl

theorem fresh_setTimeout (b : Base) (e : Nat) (timeout : Int) (now : LtTime) (realloc : Bool) :
    (b.setTimeout e timeout now realloc).fresh = b.fresh := by
  unfold setTimeout
  split_ifs <;> rfl

theorem ev_modify (b : Base) (e x : Nat) (g : EventT → EventT) :
    (b.modify e g).ev x = if x = e then g (b.ev x) else b.ev x := by
  by_cases hx : x = e
  · simp [modify, hx]
  · simp [modify, hx]

theorem active_setTimeout (b : Base) (e x : Nat) (timeout : Int) (now : LtTime) (realloc : Bool) :
    ((b.setTimeout e timeout now realloc).ev x).active = (b.ev x).active := by
  have hInit := sameEvents_setIdx b.toTimers e (-1)
  unfold setTimeout
  split_ifs
  · refine (active_setEndtime _ _ _ _).trans ?_
    exact ((hInit.trans (sameEvents_minHeapPush _ e realloc)).active x)
  · exact hInit.active x

/-- What a call does to the fields that the active list reads: the flag, the mark of a
deletion and the link. Events that the call is not about keep all three. -/
theorem active_io (b : Base) (c : IoCall) (x : Nat) :
    ((b.io c).ev x).active =
      match c with
      | .add flag _ _ _ => if x = b.fresh then (flag, 0, none) else (b.ev x).active
      | .mod e flag _ _ _ => if x = e then (flag, (b.ev x).active.2) else (b.ev x).active
      | .remove e => if x = e then ((b.ev x).flag, 1, (b.ev x).nextActiveEv) else (b.ev x).active := by
  cases c with
  | add flag timeout now realloc =>
      refine (active_setTimeout _ _ _ _ _ _).trans ?_
      rw [ltEvInit, ev_modify]
      exact apply_ite EventT.active _ _ _
  | mod e flag timeout now realloc =>
      have hSame := active_setTimeout b e x timeout now realloc
      rw [io, ltIoMod, ev_modify]
      simp only
      split_ifs
      · exact congrArg (fun y : Nat × Nat × Option Nat => (flag, y.2)) hSame
      · exact hSame
  | remove e =>
      have hSame : ((if (b.ev e).minHeapIdx ≠ -1 then { b with toTimers := b.minHeapErase e } else b).ev x).active =
          (b.ev x).active := by
        split_ifs
        · exact (sameEvents_minHeapErase b.toTimers e).active x
        · rfl
      rw [io, ltIoRemove, ev_modify]
      by_cases hx : x = e
      · simp only [if_pos hx]
        exact congrArg (fun y : Nat × Nat × Option Nat => (y.1, 1, y.2.2)) hSame
      · simp only [if_neg hx]
        exact hSame

/-- A call hands out at most one event. -/
theorem fresh_io (b : Base) (c : IoCall) :
    (b.io c).fresh = b.fresh + match c with | .add _ _ _ _ => 1 | _ => 0 := by
  cases c with
  | add flag timeout now realloc => exact fresh_setTimeout _ _ _ _ _
  | mod e flag timeout now realloc => exact fresh_setTimeout _ _ _ _ _
  | remove e =>
      rw [io, ltIoRemove, fresh_modify]
      split_ifs <;> rfl

/-- No call touches the active list. -/
theorem head_io (b : Base) (c : IoCall) : (b.io c).head = b.head := by
  have hSet : ∀ (b : Base) e timeout now realloc, (b.setTimeout e timeout now realloc).head = b.head := by
    intro b e timeout now realloc
    unfold setTimeout
    split_ifs <;> rfl
  cases c with
  | add flag timeout now realloc => exact hSet _ _ _ _ _
  | mod e flag timeout now realloc => exact hSet _ _ _ _ _
  | remove e =>
      simp only [io, ltIoRemove, modify]
      split_ifs <;> rfl

theorem fresh_le_io (b : Base) (c : IoCall) : b.fresh ≤ (b.io c).fresh := by
  rw [fresh_io]
  exact Nat.le_add_right _ _

/-- A call makes no links. -/
theorem link_io {b : Base} {c : IoCall} {e z : Nat} (he : e < (b.io c).fresh)
    (h : ((b.io c).ev e).nextActiveEv = some z) : e < b.fresh ∧ (b.ev e).nextActiveEv = some z := by
  have hActive := congrArg (fun y : Nat × Nat × Option Nat => y.2.2) (b.active_io c e)
  rw [fresh_io] at he
  cases c with
  | add flag timeout now realloc =>
      simp only at hActive he
      split_ifs at hActive with hNew
      · exact absurd (h.symm.trans hActive) (by simp)
      · exact ⟨by omega, hActive.symm.trans h⟩
  | mod e' flag timeout now realloc =>
      simp only at hActive he
      split_ifs at hActive
      · exact ⟨he, hActive.symm.trans h⟩
      · exact ⟨he, hActive.symm.trans h⟩
  | remove e' =>
      simp only at hActive he
      split_ifs at hActive
      · exact ⟨he, hActive.symm.trans h⟩
      · exact ⟨he, hActive.symm.trans h⟩

end Base
end Leactor
