import Leactor.Library.Loop
import Leactor.Event.Base

/-! One iteration of `lt_base_loop` behind `epoll_wait`: `lt_loop_init_actlist`
and `lt_ev_process_and_moveout` as turns of one loop, with callbacks that may
make the calls of event_lea.c. -/
namespace Leactor

variable {κ : Type*}

def epollin : Nat := 1

def epollout : Nat := 4

structure EpollEvent where
  events : Nat
  ptr : Nat

def EpollEvent.Ready (x : EpollEvent) : Prop := x.events &&& (epollin ||| epollout) ≠ 0

instance : DecidablePred EpollEvent.Ready := fun _ => inferInstanceAs (Decidable (_ ≠ _))

def EventT.Lags (ev : EventT) : Prop := ev.flag &&& lvLag ≠ 0

def EventT.Oneshot (ev : EventT) : Prop := ev.flag &&& lvOneshot ≠ 0

instance : DecidablePred EventT.Lags := fun _ => inferInstanceAs (Decidable (_ ≠ _))
instance : DecidablePred EventT.Oneshot := fun _ => inferInstanceAs (Decidable (_ ≠ _))

/-- `lt_ev_check_timeout`. The two differences are taken to fit a `time_t` and a `long`, also where
the endtime is what the block of an event without a timeout held before. -/
def ltEvCheckTimeout (ev : EventT) (nowtime : LtTime) : Prop :=
  0 < ev.endtime.sec - nowtime.sec ∨
    ev.endtime.sec - nowtime.sec = 0 ∧ 0 ≤ ev.endtime.nsec - nowtime.nsec

instance (ev : EventT) (nowtime : LtTime) : Decidable (ltEvCheckTimeout ev nowtime) :=
  inferInstanceAs (Decidable (_ ∨ _))

/-- What happens to an event: its callback is invoked, or a call arms or removes it. -/
inductive Act where
  | called (e : Nat) (oneshot : Bool)
  | armed (e : Nat)
  | removed (e : Nat)
  deriving DecidableEq, Repr

def Base.act (b : Base) : IoCall → Act
  | .add _ _ _ _ => .armed b.fresh
  | .mod e _ _ _ _ => .armed e
  | .remove e => .removed e

/-- The base, the memory of the callbacks, and what has happened so far. -/
structure World (κ : Type*) where
  base : Base
  mem : κ
  trace : List Act

/-- A callback of an event: it works on its own memory and makes some calls. -/
abbrev Callback (κ : Type*) := Nat → κ → Base → κ × List IoCall

namespace World

def io (w : World κ) (c : IoCall) : World κ :=
  { w with base := w.base.io c, trace := w.trace ++ [w.base.act c] }

def invoke (cb : Callback κ) (w : World κ) (e : Nat) : World κ :=
  (cb e w.mem w.base).2.foldl io
    { w with mem := (cb e w.mem w.base).1, trace := w.trace ++ [.called e (decide (w.base.ev e).Oneshot)] }

def modify (w : World κ) (e : Nat) (g : EventT → EventT) : World κ := { w with base := w.base.modify e g }

def setList (w : World κ) (head tail : Option Nat) : World κ :=
  { w with base := { w.base with head := head, tail := tail } }

/-- The body of the loop of `lt_ev_process_and_moveout`. -/
def process (cb : Callback κ) (nowtime : LtTime) (w : World κ) (e : Nat) : World κ :=
  if ltEvCheckTimeout (w.base.ev e) nowtime then w.modify e fun ev => { ev with deleted := 1 }
  else if (w.base.ev e).deleted ≠ 0 then w
  else (w.invoke cb e).modify e fun ev => { ev with deleted := ev.flag &&& lvOneshot }

end World

/-- Where the iteration stands: in the first loop of `lt_loop_init_actlist`, in
the second one with `ev_prev`, or at an event of the active list. -/
inductive Stage where
  | first
  | second (prev : Nat)
  | walk (cur : Option Nat)

/-- The state of an iteration, with the events of the batch still to be looked at. -/
structure Config (κ : Type*) where
  world : World κ
  stage : Stage
  batch : List EpollEvent

/-- One turn of the loops of `lt_loop_init_actlist` and `lt_ev_process_and_moveout`. -/
def turn (cb : Callback κ) (nowtime : LtTime) : Config κ → Loop.Turn (Config κ) (World κ)
  | ⟨w, .first, []⟩ => .again ⟨w.setList w.base.head w.base.head, .walk w.base.head, []⟩
  | ⟨w, .first, x :: xs⟩ =>
      if x.Ready then
        if (w.base.ev x.ptr).Lags then .again ⟨w.setList (some x.ptr) (some x.ptr), .second x.ptr, xs⟩
        else .again ⟨w.invoke cb x.ptr, .first, xs⟩
      else .again ⟨w, .first, xs⟩
  | ⟨w, .second prev, []⟩ => .again ⟨w.setList w.base.head (some prev), .walk w.base.head, []⟩
  | ⟨w, .second prev, x :: xs⟩ =>
      if (w.base.ev x.ptr).Lags ∧ x.Ready then
        .again ⟨w.modify prev fun ev => { ev with nextActiveEv := some x.ptr }, .second x.ptr, xs⟩
      else .again ⟨w.invoke cb x.ptr, .second prev, xs⟩
  | ⟨w, .walk (some e), xs⟩ =>
      .again ⟨w.process cb nowtime e, .walk (((w.process cb nowtime e).base.ev e).nextActiveEv), xs⟩
  | ⟨w, .walk none, _⟩ => .exit (w.setList none none)

inductive TurnStep (cb : Callback κ) (nowtime : LtTime) : Config κ → Config κ → Prop where
  | ended (w : World κ) :
      TurnStep cb nowtime ⟨w, .first, []⟩ ⟨w.setList w.base.head w.base.head, .walk w.base.head, []⟩
  | defer (w : World κ) (x : EpollEvent) (xs : List EpollEvent) (hReady : x.Ready)
      (hLags : (w.base.ev x.ptr).Lags) :
      TurnStep cb nowtime ⟨w, .first, x :: xs⟩ ⟨w.setList (some x.ptr) (some x.ptr), .second x.ptr, xs⟩
  | direct (w : World κ) (x : EpollEvent) (xs : List EpollEvent) (hReady : x.Ready)
      (hLags : ¬ (w.base.ev x.ptr).Lags) :
      TurnStep cb nowtime ⟨w, .first, x :: xs⟩ ⟨w.invoke cb x.ptr, .first, xs⟩
  | skip (w : World κ) (x : EpollEvent) (xs : List EpollEvent) (hReady : ¬ x.Ready) :
      TurnStep cb nowtime ⟨w, .first, x :: xs⟩ ⟨w, .first, xs⟩
  | linked (w : World κ) (prev : Nat) :
      TurnStep cb nowtime ⟨w, .second prev, []⟩ ⟨w.setList w.base.head (some prev), .walk w.base.head, []⟩
  | link (w : World κ) (prev : Nat) (x : EpollEvent) (xs : List EpollEvent)
      (hDeferred : (w.base.ev x.ptr).Lags ∧ x.Ready) :
      TurnStep cb nowtime ⟨w, .second prev, x :: xs⟩
        ⟨w.modify prev fun ev => { ev with nextActiveEv := some x.ptr }, .second x.ptr, xs⟩
  | late (w : World κ) (prev : Nat) (x : EpollEvent) (xs : List EpollEvent)
      (hDeferred : ¬ ((w.base.ev x.ptr).Lags ∧ x.Ready)) :
      TurnStep cb nowtime ⟨w, .second prev, x :: xs⟩ ⟨w.invoke cb x.ptr, .second prev, xs⟩
  | process (w : World κ) (e : Nat) (xs : List EpollEvent) :
      TurnStep cb nowtime ⟨w, .walk (some e), xs⟩
        ⟨w.process cb nowtime e, .walk ((w.process cb nowtime e).base.ev e).nextActiveEv, xs⟩

theorem turn_again {cb : Callback κ} {nowtime : LtTime} {c d : Config κ} (h : turn cb nowtime c = .again d) :
    TurnStep cb nowtime c d := by
  obtain ⟨w, stage, batch⟩ := c
  rcases stage with _ | prev | ⟨_ | e⟩
  · cases batch with
    | nil =>
        cases h
        exact .ended w
    | cons x xs =>
        simp only [turn] at h
        split_ifs at h with hReady hLags
        · cases h
          exact .defer w x xs hReady hLags
        · cases h
          exact .direct w x xs hReady hLags
        · cases h
          exact .skip w x xs hReady
  · cases batch with
    | nil =>
        cases h
        exact .linked w prev
    | cons x xs =>
        simp only [turn] at h
        split_ifs at h with hDeferred
        · cases h
          exact .link w prev x xs hDeferred
        · cases h
          exact .late w prev x xs hDeferred
  · exact nomatch h
  · cases h
    exact .process w e batch

theorem turn_exit {cb : Callback κ} {nowtime : LtTime} {c : Config κ} {w : World κ}
    (h : turn cb nowtime c = .exit w) : w = c.world.setList none none ∧ c.stage = .walk none := by
  obtain ⟨w, stage, batch⟩ := c
  rcases stage with _ | prev | ⟨_ | e⟩
  · cases batch with
    | nil => exact nomatch h
    | cons x xs =>
        simp only [turn] at h
        split_ifs at h
  · cases batch with
    | nil => exact nomatch h
    | cons x xs =>
        simp only [turn] at h
        split_ifs at h
  · cases h
    exact ⟨rfl, rfl⟩
  · exact nomatch h

end Leactor
