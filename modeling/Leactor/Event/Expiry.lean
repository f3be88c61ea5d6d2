import Leactor.Event.DispatchSpec

/-! When an event expires: the addition of the timeout, the comparison with the
time of the check, and what the walk over the active events makes of it. -/
namespace Leactor

variable {κ : Type*}

/-- The call registers the event `e` with a timeout at the time `t0`. -/
def IoCall.Registers (b : Base) (e : Nat) (timeout : Int) (t0 : LtTime) : IoCall → Prop
  | .add _ timeout' now _ => e = b.fresh ∧ timeout' = timeout ∧ now = t0
  | .mod x _ timeout' now _ => x = e ∧ timeout' = timeout ∧ now = t0
  | .remove _ => False

/-- What happens to a base: a call, or a change of an event's fields or of `activelist`. -/
inductive BaseStep where
  | call (c : IoCall)
  | mark (x deleted : Nat)
  | link (x next : Nat)
  | flag (x flag : Nat)
  | list (head tail : Option Nat)

def Base.step (b : Base) : BaseStep → Base
  | .call c => b.io c
  | .mark x deleted => b.modify x fun ev => { ev with deleted := deleted }
  | .link x next => b.modify x fun ev => { ev with nextActiveEv := some next }
  | .flag x flag => b.modify x fun ev => { ev with flag := flag }
  | .list head tail => { b with head := head, tail := tail }

def BaseStep.Leaves (e : Nat) (b : Base) (a : BaseStep) : Prop :=
  ∀ c, a = .call c → ∀ timeout t0, ¬ c.Registers b e timeout t0

/-- Times that are normalised and in order, with sums and differences that fit a `long`.
-/
structure InTime (t0 t : LtTime) (timeout : Int) : Prop where
  armed : 0 ≤ t0.nsec ∧ t0.nsec < 1000000000
  checked : 0 ≤ t.nsec ∧ t.nsec < 1000000000
  order : t0.total ≤ t.total
  span : t.total - t0.total < 2 ^ 63
  fits : timeout + t0.nsec < 2 ^ 63

def Elapsed (timeout : Int) (t0 t : LtTime) : Prop := timeout ≠ noTimeout ∧ timeout ≤ ltTimeASubB t t0

/-- At the time `t` the event is reported as timed out exactly if its timeout has
elapsed, and its callback is invoked exactly if it has not. -/
structure ExpiresOnTime (cb : Callback κ) (w : World κ) (e : Nat) (timeout : Int) (t0 t : LtTime) : Prop where
  check : ltEvCheckTimeout (w.base.ev e) t ↔ Elapsed timeout t0 t
  callback : calls (w.process cb t e).trace = calls w.trace ++ [e] ↔ ¬ Elapsed timeout t0 t

/-- The addition carries, but leaves a whole second in the nanoseconds. -/
theorem carry_spec (sec : Int) {nsec : Int} (h : 0 ≤ nsec) :
    (carry sec nsec).total = sec * 1000000000 + nsec ∧ 0 ≤ (carry sec nsec).nsec ∧
      (carry sec nsec).nsec ≤ 1000000000 ∧ ((carry sec nsec).nsec = 0 ↔ nsec = 0) := by
  induction sec, nsec using carry.induct with
  | case1 sec nsec hMore ih =>
      obtain ⟨hTotal, hLow, hHigh, hZero⟩ := ih (by omega)
      rw [carry, if_pos hMore]
      exact ⟨by rw [hTotal]; omega, hLow, hHigh, by omega⟩
  | case2 sec nsec hLast =>
      rw [carry, if_neg hLast]
      exact ⟨rfl, h, by simp only; omega, Iff.rfl⟩

/-- The comparison runs the wrong way: it agrees with the elapsed time only at the
deadline itself, and there only if the sum was not cut at a full second. -/
theorem check_iff_of_armed {ev : EventT} {t0 t : LtTime} {timeout : Int} (hTimes : InTime t0 t timeout)
    (hTimeout : 0 ≤ timeout) (hEnd : ev.endtime = ltTimeAddition t0 timeout) :
    (ltEvCheckTimeout ev t ↔ timeout ≤ ltTimeASubB t t0) ↔
      t.total = t0.total + timeout ∧ (t.nsec = 0 → t0.nsec + timeout = 0) := by
  obtain ⟨⟨hLow, hHigh⟩, ⟨hLow', hHigh'⟩, hOrder, hSpan, hFits⟩ := hTimes
  rw [ltTimeAddition, wrap64_of_bounds (by omega) (by omega)] at hEnd
  have hSum : 0 ≤ timeout + t0.nsec := by omega
  obtain ⟨hTotal, hNsec, hNsec', hZero⟩ := carry_spec t0.sec hSum
  rw [← hEnd] at hTotal hNsec hNsec' hZero
  rw [ltTimeASubB_total hOrder hSpan]
  have hTotal' : ev.endtime.sec * 1000000000 + ev.endtime.nsec = t0.total + timeout := by
    unfold LtTime.total at hTotal ⊢
    omega
  have hNow : t.sec * 1000000000 + t.nsec = t.total := rfl
  by_cases hFull : ev.endtime.nsec = 1000000000
  · -- the second that was not carried makes the check false at the deadline, too
    have hCheck : ltEvCheckTimeout ev t ↔ t.total < t0.total + timeout := by
      unfold ltEvCheckTimeout
      omega
    rw [hCheck, le_sub_iff_add_le, add_comm timeout]
    refine iff_of_false (not_iff.mpr not_lt) ?_
    rintro ⟨hDeadline, hWhole⟩
    have hNone := hWhole (by omega)
    omega
  · have hCheck : ltEvCheckTimeout ev t ↔ t.total ≤ t0.total + timeout := by
      unfold ltEvCheckTimeout
      omega
    rw [hCheck]
    constructor
    · intro hSame
      omega
    · rintro ⟨hDeadline, -⟩
      omega

namespace Base

open Timers

theorem endtime_setTimeout (b : Base) (e x : Nat) (timeout : Int) (now : LtTime) (realloc : Bool) :
    ((b.setTimeout e timeout now realloc).ev x).endtime =
      if x = e ∧ 0 ≤ timeout then ltTimeAddition now timeout else (b.ev x).endtime := by
  have hInit := sameEvents_setIdx b.toTimers e (-1)
  unfold setTimeout
  by_cases hTimeout : 0 ≤ timeout
  · have hPush := hInit.trans (sameEvents_minHeapPush _ e realloc)
    rw [if_pos hTimeout]
    by_cases hx : x = e
    · rw [if_pos ⟨hx, hTimeout⟩, hx]
      simp [ltTimeoutAdd, Timers.setEndtime]
    · rw [if_neg fun hBoth => hx hBoth.1]
      exact (congrArg EventT.endtime (ev_setEndtime_other _ _ hx)).trans (hPush.endtime x)
  · rw [if_neg hTimeout, if_neg fun hBoth => hTimeout hBoth.2]
    exact hInit.endtime x

/-- Only a registration changes the endtime of an event, and one without a timeout
leaves it as the block held it. -/
theorem endtime_io (b : Base) (c : IoCall) (x : Nat) :
    ((b.io c).ev x).endtime =
      match c with
      | .add _ timeout now _ => if x = b.fresh ∧ 0 ≤ timeout then ltTimeAddition now timeout else (b.ev x).endtime
      | .mod e _ timeout now _ => if x = e ∧ 0 ≤ timeout then ltTimeAddition now timeout else (b.ev x).endtime
      | .remove _ => (b.ev x).endtime := by
  cases c with
  | add flag timeout now realloc =>
      have hInit : ((b.ltEvInit b.fresh flag 0).ev x).endtime = (b.ev x).endtime := by
        rw [ltEvInit, ev_modify]
        split_ifs <;> rfl
      refine (endtime_setTimeout _ _ _ _ _ _).trans ?_
      exact congrArg (fun old => if x = b.fresh ∧ 0 ≤ timeout then ltTimeAddition now timeout else old) hInit
  | mod e flag timeout now realloc =>
      rw [io, ltIoMod, ev_modify]
      refine Eq.trans ?_ (endtime_setTimeout b e x timeout now realloc)
      split_ifs <;> rfl
  | remove e =>
      have hErase : ((if (b.ev e).minHeapIdx ≠ -1 then { b with toTimers := b.minHeapErase e } else b).ev x).endtime =
          (b.ev x).endtime := by
        split_ifs
        · exact (sameEvents_minHeapErase b.toTimers e).endtime x
        · rfl
      rw [io, ltIoRemove, ev_modify, ← hErase]
      split_ifs <;> rfl

theorem endtime_step (b : Base) {a : BaseStep} {e : Nat} (h : a.Leaves e b) :
    ((b.step a).ev e).endtime = (b.ev e).endtime := by
  cases a with
  | call c =>
      rw [step, endtime_io]
      cases c with
      | add flag timeout now realloc => exact if_neg fun hBoth => h _ rfl timeout now ⟨hBoth.1, rfl, rfl⟩
      | mod x flag timeout now realloc => exact if_neg fun hBoth => h _ rfl timeout now ⟨hBoth.1.symm, rfl, rfl⟩
      | remove x => rfl
  | mark x deleted =>
      rw [step, ev_modify]
      split_ifs <;> rfl
  | link x next =>
      rw [step, ev_modify]
      split_ifs <;> rfl
  | flag x flag =>
      rw [step, ev_modify]
      split_ifs <;> rfl
  | list head tail => rfl

/-- The endtime stays until the event is registered anew. -/
theorem endtime_of_reach {b b' : Base} {e : Nat} (h : Run.Reach step (BaseStep.Leaves e) b b') :
    (b'.ev e).endtime = (b.ev e).endtime :=
  h.all (I := fun s => (s.ev e).endtime = (b.ev e).endtime) rfl fun s _ hSame hLeaves =>
    (s.endtime_step hLeaves).trans hSame

theorem endtime_registered {b : Base} {c : IoCall} {e : Nat} {timeout : Int} {t0 : LtTime}
    (h : c.Registers b e timeout t0) :
    ((b.io c).ev e).endtime = if 0 ≤ timeout then ltTimeAddition t0 timeout else (b.ev e).endtime := by
  rw [endtime_io]
  cases c with
  | add flag timeout' now realloc =>
      obtain ⟨rfl, rfl, rfl⟩ := h
      simp only [true_and]
  | mod x flag timeout' now realloc =>
      obtain ⟨rfl, rfl, rfl⟩ := h
      simp only [true_and]
  | remove x => exact h.elim

theorem reach_foldl_io (b : Base) (cs : List IoCall) : Run.Reach step (fun _ _ => True) b (cs.foldl io b) :=
  List.foldlRecOn cs io .start fun _ hReach c _ => .next (BaseStep.call c) hReach trivial

end Base

/-- A turn of the event loop is made of such steps. -/
theorem turn_reach {cb : Callback κ} {t : LtTime} {c d : Config κ} (h : turn cb t c = .again d) :
    Run.Reach Base.step (fun _ _ => True) c.world.base d.world.base := by
  have hInvoke : ∀ (w : World κ) e, Run.Reach Base.step (fun _ _ => True) w.base (w.invoke cb e).base := by
    intro w e
    rw [World.base_invoke]
    exact w.base.reach_foldl_io _
  cases turn_again h with
  | ended w => exact .next (BaseStep.list _ _) .start trivial
  | defer w x xs => exact .next (BaseStep.list _ _) .start trivial
  | direct w x xs => exact hInvoke w x.ptr
  | skip w x xs => exact .start
  | linked w prev => exact .next (BaseStep.list _ _) .start trivial
  | link w prev x xs => exact .next (BaseStep.link prev x.ptr) .start trivial
  | late w prev x xs => exact hInvoke w x.ptr
  | process w e xs =>
      simp only [World.process]
      split_ifs
      · exact .next (BaseStep.mark e 1) .start trivial
      · exact .start
      · exact .next (BaseStep.mark e _) (hInvoke w e) trivial

/-- The walk invokes the callback of an active event unless the check reports it. -/
theorem World.calls_process (cb : Callback κ) {w : World κ} {e : Nat} (t : LtTime)
    (hActive : (w.base.ev e).deleted = 0) :
    calls (w.process cb t e).trace = calls w.trace ++ [e] ↔ ¬ ltEvCheckTimeout (w.base.ev e) t := by
  unfold World.process
  by_cases hCheck : ltEvCheckTimeout (w.base.ev e) t
  · rw [if_pos hCheck]
    refine iff_of_false (fun hSame => ?_) (not_not.mpr hCheck)
    exact List.cons_ne_nil e [] (List.self_eq_append_right.mp hSame)
  · rw [if_neg hCheck, if_neg (not_not.mpr hActive)]
    exact iff_of_true (w.calls_invoke cb e) hCheck

def LtTime.Before (a b : LtTime) : Prop := a.sec < b.sec ∨ a.sec = b.sec ∧ a.nsec < b.nsec

theorem not_ltEvCheckTimeout {ev : EventT} {t : LtTime} : ¬ ltEvCheckTimeout ev t ↔ ev.endtime.Before t := by
  unfold ltEvCheckTimeout LtTime.Before
  omega

/-- An event expires on time only if it is checked at the very deadline, and not on a
full second that was carried; one without a timeout, only if the endtime that the block
held before has passed. Any calls for other events may come in between. -/
theorem expiresOnTime_iff {b b' : Base} {c : IoCall} {e : Nat} {timeout : Int} {t0 t : LtTime}
    (hLegal : b.Legal c) (hRegisters : c.Registers b e timeout t0)
    (hSince : Run.Reach Base.step (BaseStep.Leaves e) (b.io c) b') (hTimes : InTime t0 t timeout)
    (hActive : (b'.ev e).deleted = 0) (cb : Callback κ) (m : κ) (trace : List Act) :
    ExpiresOnTime cb ⟨b', m, trace⟩ e timeout t0 t ↔
      (timeout = noTimeout ∧ (b.ev e).endtime.Before t) ∨
        (0 ≤ timeout ∧ t.total = t0.total + timeout ∧ (t.nsec = 0 → t0.nsec + timeout = 0)) := by
  have hEnd := (Base.endtime_of_reach hSince).trans (Base.endtime_registered hRegisters)
  have hBoth : ExpiresOnTime cb ⟨b', m, trace⟩ e timeout t0 t ↔
      (ltEvCheckTimeout (b'.ev e) t ↔ Elapsed timeout t0 t) := by
    refine ⟨fun h => h.check, fun h => ⟨h, ?_⟩⟩
    rw [World.calls_process cb (w := ⟨b', m, trace⟩) t hActive]
    exact not_congr h
  have hTimeout : timeout = noTimeout ∨ 0 ≤ timeout := by
    cases c with
    | add flag timeout' now realloc => exact hRegisters.2.1 ▸ hLegal
    | mod x flag timeout' now realloc => exact hRegisters.2.1 ▸ hLegal.2
    | remove x => exact hRegisters.elim
  rw [hBoth]
  rcases hTimeout with rfl | hTimeout
  · have hNever : ¬ Elapsed noTimeout t0 t := fun h => h.1 rfl
    rw [if_neg (by decide)] at hEnd
    rw [iff_false_right hNever, not_ltEvCheckTimeout, hEnd]
    exact ⟨fun h => .inl ⟨rfl, h⟩, fun h => h.elim (fun h => h.2) fun h => absurd h.1 (by decide)⟩
  · have hSome : timeout ≠ noTimeout := by
      unfold noTimeout
      omega
    have hElapsed : Elapsed timeout t0 t ↔ timeout ≤ ltTimeASubB t t0 := and_iff_right hSome
    rw [if_pos hTimeout] at hEnd
    rw [hElapsed, check_iff_of_armed hTimes hTimeout hEnd]
    exact ⟨fun h => .inr ⟨hTimeout, h⟩, fun h => h.elim (fun h => absurd h.1 hSome) fun h => h.2⟩

def armedBase : Base := (Base.ltBaseInit (fun _ => 0) (fun _ => {}) none).io (.add 0 5 ⟨0, 0⟩ true)

theorem armedBase_active : (armedBase.ev 0).deleted = 0 := by
  have hFields : (armedBase.ev 0).active = (0, 0, none) :=
    Base.active_io (Base.ltBaseInit (fun _ => 0) (fun _ => {}) none) (.add 0 5 ⟨0, 0⟩ true) 0
  exact congrArg (fun y : Nat × Nat × Option Nat => y.2.1) hFields

theorem expiresOnTime_deadline :
    ExpiresOnTime (fun _ m _ => (m, [])) ⟨armedBase, (), []⟩ 0 5 ⟨0, 0⟩ ⟨0, 5⟩ :=
  (expiresOnTime_iff (c := .add 0 5 ⟨0, 0⟩ true) (.inr (by decide)) ⟨rfl, rfl, rfl⟩ .start
    ⟨by decide, by decide, by decide, by decide, by decide⟩ armedBase_active _ () []).mpr
    (.inr ⟨by decide, rfl, by decide⟩)

/-- After three of the five nanoseconds it is reported as timed out. -/
theorem not_expiresOnTime :
    ¬ ∀ (b b' : Base) (c : IoCall) (e : Nat) (timeout : Int) (t0 t : LtTime) (cb : Callback Unit)
      (trace : List Act), b.Legal c → c.Registers b e timeout t0 →
      Run.Reach Base.step (BaseStep.Leaves e) (b.io c) b' → InTime t0 t timeout → (b'.ev e).deleted = 0 →
      ExpiresOnTime cb ⟨b', (), trace⟩ e timeout t0 t := by
  intro hClaim
  have hTimes : InTime ⟨0, 0⟩ ⟨0, 3⟩ 5 := ⟨by decide, by decide, by decide, by decide, by decide⟩
  have hOnTime := hClaim (Base.ltBaseInit (fun _ => 0) (fun _ => {}) none) armedBase (.add 0 5 ⟨0, 0⟩ true) 0 5
    ⟨0, 0⟩ ⟨0, 3⟩ (fun _ m _ => (m, [])) [] (.inr (by decide)) ⟨rfl, rfl, rfl⟩ .start hTimes armedBase_active
  have hEnd : (armedBase.ev 0).endtime = ltTimeAddition ⟨0, 0⟩ 5 := by
    refine (Base.endtime_io _ (.add 0 5 ⟨0, 0⟩ true) 0).trans ?_
    exact if_pos ⟨rfl, by decide⟩
  have hDeadline := (check_iff_of_armed hTimes (by decide) hEnd).mp
    (hOnTime.check.trans (and_iff_right (by decide)))
  exact absurd hDeadline.1 (by decide)

/-! The sum on its own: whether it is normalised. -/
section Addition

variable {time time' : LtTime} {timeout timeout' : Int}

structure Addable (time : LtTime) (timeout : Int) : Prop where
  normal : 0 ≤ time.nsec ∧ time.nsec < 1000000000
  nonneg : 0 ≤ timeout
  fits : timeout + time.nsec < 2 ^ 63
  secs : time.sec + (timeout + time.nsec) / 1000000000 < 2 ^ 63

/-- The sum is normalised and denotes the later instant. -/
structure ExactSum (time : LtTime) (timeout : Int) : Prop where
  nsec : 0 ≤ (ltTimeAddition time timeout).nsec ∧ (ltTimeAddition time timeout).nsec < 1000000000
  total : (ltTimeAddition time timeout).total = time.total + timeout

/-- The nanoseconds of the sum are no whole seconds, unless they are none. -/
def SplitsSecond (time : LtTime) (timeout : Int) : Prop :=
  timeout + time.nsec = 0 ∨ (timeout + time.nsec) % 1000000000 ≠ 0

/-- The carry stops at a whole second exactly if the sum is a multiple of one. -/
theorem exactSum_iff (h : Addable time timeout) : ExactSum time timeout ↔ SplitsSecond time timeout := by
  obtain ⟨⟨hLow, hHigh⟩, hTimeout, hFits, -⟩ := h
  have hSum : 0 ≤ timeout + time.nsec := by omega
  obtain ⟨hTotal, hNsec, hNsec', hZero⟩ := carry_spec time.sec hSum
  have hCarry : ltTimeAddition time timeout = carry time.sec (timeout + time.nsec) := by
    rw [ltTimeAddition, wrap64_of_bounds (by omega) (by omega)]
  rw [← hCarry] at hTotal hNsec hNsec' hZero
  have hSplit : (ltTimeAddition time timeout).total =
      (ltTimeAddition time timeout).sec * 1000000000 + (ltTimeAddition time timeout).nsec := rfl
  constructor
  · rintro ⟨⟨-, hLess⟩, -⟩
    unfold SplitsSecond
    omega
  · intro hCut
    refine ⟨⟨hNsec, ?_⟩, ?_⟩
    · unfold SplitsSecond at hCut
      omega
    · rw [hTotal, LtTime.total]
      omega

/-- Between normalised times the comparison of the check is the one of the instants. -/
theorem ltEvCheckTimeout_iff_total {ev : EventT} {now : LtTime}
    (h : 0 ≤ ev.endtime.nsec ∧ ev.endtime.nsec < 1000000000) (hNow : 0 ≤ now.nsec ∧ now.nsec < 1000000000) :
    ltEvCheckTimeout ev now ↔ now.total ≤ ev.endtime.total := by
  unfold ltEvCheckTimeout LtTime.total
  omega

/-- Two sums are exact, and compare as their instants do, exactly if neither is cut at a
whole second. Both directions of the comparison are part of it: it is the one of
`lt_ev_check_timeout`. -/
theorem ltTimeAddition_exact_iff (h : Addable time timeout) (h' : Addable time' timeout') (ev : EventT) :
    (ExactSum time timeout ∧ ExactSum time' timeout' ∧
      (ltEvCheckTimeout { ev with endtime := ltTimeAddition time timeout } (ltTimeAddition time' timeout') ↔
        time'.total + timeout' ≤ time.total + timeout)) ↔
      SplitsSecond time timeout ∧ SplitsSecond time' timeout' := by
  rw [← exactSum_iff h, ← exactSum_iff h']
  refine ⟨fun hAll => ⟨hAll.1, hAll.2.1⟩, fun ⟨hExact, hExact'⟩ => ⟨hExact, hExact', ?_⟩⟩
  rw [← hExact.total, ← hExact'.total]
  exact ltEvCheckTimeout_iff_total hExact.nsec hExact'.nsec

theorem ltTimeAddition_exact_iff_half :
    (ExactSum ⟨1, 500000000⟩ 700000000 ∧ ExactSum ⟨1, 500000000⟩ 700000001 ∧
      (ltEvCheckTimeout { endtime := ltTimeAddition ⟨1, 500000000⟩ 700000000 }
          (ltTimeAddition ⟨1, 500000000⟩ 700000001) ↔
        LtTime.total ⟨1, 500000000⟩ + 700000001 ≤ LtTime.total ⟨1, 500000000⟩ + 700000000)) ↔
      SplitsSecond ⟨1, 500000000⟩ 700000000 ∧ SplitsSecond ⟨1, 500000000⟩ 700000001 :=
  ltTimeAddition_exact_iff ⟨by decide, by decide, by decide, by decide⟩ ⟨by decide, by decide, by decide, by decide⟩ {}

/-- A second stays a thousand million nanoseconds. -/
theorem not_exactSum : ¬ ∀ time timeout, Addable time timeout → ExactSum time timeout := by
  intro hClaim
  have hAdd : Addable ⟨0, 0⟩ 1000000000 := ⟨by decide, by decide, by decide, by decide⟩
  have hCut := (exactSum_iff hAdd).mp (hClaim _ _ hAdd)
  exact absurd hCut (by unfold SplitsSecond; decide)

end Addition

end Leactor
