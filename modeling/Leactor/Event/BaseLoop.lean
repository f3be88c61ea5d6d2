import Leactor.Basic
import Leactor.Event.Dispatch

/-! `lt_base_loop` from one return of `epoll_wait` to the next: when it leaves,
and which of the reported events it passes on. -/
namespace Leactor

variable {κ : Type*}

/-- `time_a_gt_b(X,>,Z)`: both sides are compared as `unsigned long long`. -/
def timeAGtB (x z : Int) : Prop := toSize z < toSize x

instance (x z : Int) : Decidable (timeAGtB x z) := inferInstanceAs (Decidable (_ < _))

/-- How `epoll_wait` returns: with events, or with -1 and `EINTR` or another error. -/
inductive EpollWait where
  | ready (batch : List EpollEvent)
  | interrupted
  | failed

/-- A return of `epoll_wait`, and the time that `lt_gettime` reads behind it. -/
structure WakeUp where
  result : EpollWait
  after : LtTime

def WakeUp.events (x : WakeUp) : List EpollEvent :=
  match x.result with
  | .ready batch => batch
  | _ => []

/-- Where `lt_base_loop` stands: in `epoll_wait`, in the calls behind it, or behind
its loop, which it leaves through the break or with -1. -/
inductive LoopPhase (κ : Type*) where
  | waiting (w : World κ)
  | dispatching (nowtime : LtTime) (c : Config κ)
  | expired (w : World κ)
  | failed (w : World κ)

/-- What the loop does with a return of `epoll_wait`, and what it passes to `lt_loop_init_actlist`. -/
def wake (timeout : Int) (start : LtTime) (w : World κ) (x : WakeUp) : LoopPhase κ × List EpollEvent :=
  match x.result with
  | .failed => (.failed w, [])
  | _ =>
      if timeAGtB (ltTimeASubB x.after start) timeout then (.expired w, [])
      else (.dispatching x.after ⟨w, .first, x.events⟩, x.events)

/-- The loop, the wake-ups so far, and the events passed on so far. -/
structure LoopRun (κ : Type*) where
  phase : LoopPhase κ
  woken : List WakeUp
  passed : List EpollEvent

inductive Looped (cb : Callback κ) (timeout : Int) (start : LtTime) : LoopRun κ → Prop where
  | begin (w : World κ) : Looped cb timeout start ⟨.waiting w, [], []⟩
  | wake {w : World κ} {woken : List WakeUp} {passed : List EpollEvent} (x : WakeUp)
      (prior : Looped cb timeout start ⟨.waiting w, woken, passed⟩) :
      Looped cb timeout start
        ⟨(wake timeout start w x).1, woken ++ [x], passed ++ (wake timeout start w x).2⟩
  | turn {nowtime : LtTime} {c d : Config κ} {woken : List WakeUp} {passed : List EpollEvent}
      (prior : Looped cb timeout start ⟨.dispatching nowtime c, woken, passed⟩)
      (hTurn : turn cb nowtime c = .again d) :
      Looped cb timeout start ⟨.dispatching nowtime d, woken, passed⟩
  | next {nowtime : LtTime} {c : Config κ} {w : World κ} {woken : List WakeUp} {passed : List EpollEvent}
      (prior : Looped cb timeout start ⟨.dispatching nowtime c, woken, passed⟩)
      (hTurn : turn cb nowtime c = .exit w) :
      Looped cb timeout start ⟨.waiting w, woken, passed⟩

def LoopPhase.Expired : LoopPhase κ → Prop
  | .expired _ => True
  | _ => False

/-- The clock never reads less than at the start, and the difference is a `long long`. -/
def ClockFits (start : LtTime) (woken : List WakeUp) : Prop :=
  ∀ x ∈ woken, start.total ≤ x.after.total ∧ x.after.total - start.total < 2 ^ 63

/-- The nanoseconds between the start and the wake-up. -/
def WakeUp.elapsed (start : LtTime) (x : WakeUp) : Int := x.after.total - start.total

/-- Without a timeout the loop never expires; with a timeout in milliseconds it expires
at the first wake-up behind it; and no event is dropped. -/
structure Honours (timeout : Int) (start : LtTime) (r : LoopRun κ) : Prop where
  stays : timeout = noTimeout → ¬ r.phase.Expired
  leaves : 0 ≤ timeout → ∀ xs x ys, r.woken = xs ++ x :: ys → x.result ≠ .failed →
    (timeout * 1000000 < x.elapsed start ↔ r.phase.Expired ∧ ys = [])
  passes : r.passed = r.woken.flatMap WakeUp.events

/-- The condition on the wake-ups: none is later than `timeout` nanoseconds but within as
many milliseconds, and one that is later than that reports no event. -/
def Harmless (timeout : Int) (start : LtTime) (woken : List WakeUp) : Prop :=
  0 ≤ timeout → ∀ x ∈ woken, x.result ≠ .failed → timeout < x.elapsed start →
    timeout * 1000000 < x.elapsed start ∧ x.events = []

def WakeUp.GoesOn (timeout : Int) (start : LtTime) (x : WakeUp) : Prop :=
  x.result ≠ .failed ∧ ¬ timeAGtB (ltTimeASubB x.after start) timeout

/-- What the wake-ups have come to: the loop went on from all of them but the one at which it left. -/
def Ledger (timeout : Int) (start : LtTime) (r : LoopRun κ) : Prop :=
  match r.phase with
  | .waiting _ => (∀ x ∈ r.woken, x.GoesOn timeout start) ∧ r.passed = r.woken.flatMap WakeUp.events
  | .dispatching _ _ => (∀ x ∈ r.woken, x.GoesOn timeout start) ∧ r.passed = r.woken.flatMap WakeUp.events
  | .expired _ => ∃ xs x, r.woken = xs ++ [x] ∧ (∀ y ∈ xs, y.GoesOn timeout start) ∧
      x.result ≠ .failed ∧ timeAGtB (ltTimeASubB x.after start) timeout ∧ r.passed = xs.flatMap WakeUp.events
  | .failed _ => ∃ xs x, r.woken = xs ++ [x] ∧ (∀ y ∈ xs, y.GoesOn timeout start) ∧
      x.result = .failed ∧ r.passed = xs.flatMap WakeUp.events

section Runs

variable {cb : Callback κ} {timeout : Int} {start : LtTime} {r : LoopRun κ}

theorem timeAGtB_iff {x z : Int} (hLow : 0 ≤ x) (hHigh : x < 2 ^ 63) (hz : -2 ^ 31 ≤ z) (hz' : z < 2 ^ 31) :
    timeAGtB x z ↔ 0 ≤ z ∧ z < x := by
  unfold timeAGtB toSize
  omega

/-- What one return of `epoll_wait` does. -/
theorem wake_cases (timeout : Int) (start : LtTime) (w : World κ) (x : WakeUp) :
    (x.result = .failed ∧ wake timeout start w x = (.failed w, [])) ∨
      (x.result ≠ .failed ∧ timeAGtB (ltTimeASubB x.after start) timeout ∧
        wake timeout start w x = (.expired w, [])) ∨
      (x.GoesOn timeout start ∧
        wake timeout start w x = (.dispatching x.after ⟨w, .first, x.events⟩, x.events)) := by
  unfold wake WakeUp.GoesOn
  by_cases hFailed : x.result = .failed
  · exact .inl ⟨hFailed, by rw [hFailed]⟩
  · by_cases hLate : timeAGtB (ltTimeASubB x.after start) timeout
    · refine .inr (.inl ⟨hFailed, hLate, ?_⟩)
      cases hResult : x.result with
      | failed => exact absurd hResult hFailed
      | ready batch => exact if_pos hLate
      | interrupted => exact if_pos hLate
    · refine .inr (.inr ⟨⟨hFailed, hLate⟩, ?_⟩)
      cases hResult : x.result with
      | failed => exact absurd hResult hFailed
      | ready batch => exact if_neg hLate
      | interrupted => exact if_neg hLate

theorem Looped.ledger (h : Looped cb timeout start r) : Ledger timeout start r := by
  induction h with
  | begin w => exact ⟨List.forall_mem_nil _, rfl⟩
  | @wake w woken passed x prior ih =>
      obtain ⟨hOn, hPassed⟩ := ih
      simp only at hOn hPassed
      rcases wake_cases timeout start w x with ⟨hFailed, hWake⟩ | ⟨hFailed, hLate, hWake⟩ | ⟨hHere, hWake⟩
      · rw [hWake]
        exact ⟨woken, x, rfl, hOn, hFailed, (List.append_nil _).trans hPassed⟩
      · rw [hWake]
        exact ⟨woken, x, rfl, hOn, hFailed, hLate, (List.append_nil _).trans hPassed⟩
      · rw [hWake]
        refine ⟨?_, ?_⟩
        · exact List.forall_mem_append.mpr ⟨hOn, List.forall_mem_singleton.mpr hHere⟩
        · rw [List.flatMap_append, List.flatMap_singleton, hPassed]
  | turn prior hTurn ih => exact ih
  | next prior hTurn ih => exact ih

/-- The loop goes on from a wake-up unless it is later than `timeout` nanoseconds. -/
theorem WakeUp.GoesOn.early {x : WakeUp} (h : x.GoesOn timeout start) (hLow : -2 ^ 31 ≤ timeout)
    (hHigh : timeout < 2 ^ 31) (hClock : start.total ≤ x.after.total ∧ x.after.total - start.total < 2 ^ 63) :
    0 ≤ timeout → x.elapsed start ≤ timeout := by
  intro hTimeout
  have hNot := h.2
  rw [ltTimeASubB_total hClock.1 hClock.2, timeAGtB_iff (by omega) hClock.2 hLow hHigh] at hNot
  unfold WakeUp.elapsed
  omega

/-- A run whose wake-ups are all early honours its timeout, and they are harmless. -/
theorem honours_of_early (hTimeout : timeout = noTimeout → ¬ r.phase.Expired)
    (hEarly : ∀ x ∈ r.woken, x.result ≠ .failed → 0 ≤ timeout → x.elapsed start ≤ timeout)
    (hPhase : ¬ r.phase.Expired) (hPassed : r.passed = r.woken.flatMap WakeUp.events) :
    Honours timeout start r ∧ Harmless timeout start r.woken := by
  refine ⟨⟨hTimeout, ?_, hPassed⟩, ?_⟩
  · intro hPos xs x ys hWoken hResult
    have hLe := hEarly x (hWoken ▸ by simp) hResult hPos
    exact iff_of_false (by omega) fun hBoth => hPhase hBoth.1
  · intro hPos x hx hResult hLate
    have hLe := hEarly x hx hResult hPos
    omega

/-- A run of the loop honours its timeout exactly if its wake-ups are harmless. The
condition reads the clock and the answers of `epoll_wait` only, not what the loop made
of them. -/
theorem honours_iff_of_run (hRun : Looped cb timeout start r) (hLow : -2 ^ 31 ≤ timeout)
    (hHigh : timeout < 2 ^ 31) (hClock : ClockFits start r.woken) :
    Honours timeout start r ↔ Harmless timeout start r.woken := by
  have hLedger := hRun.ledger
  have hOn : ∀ x ∈ r.woken, x.GoesOn timeout start → 0 ≤ timeout → x.elapsed start ≤ timeout :=
    fun x hx hGoes => hGoes.early hLow hHigh (hClock x hx)
  unfold Ledger at hLedger
  -- outside the break every wake-up that read the clock was early
  have hQuiet : ¬ r.phase.Expired → (∀ x ∈ r.woken, x.result ≠ .failed → x.GoesOn timeout start) →
      r.passed = r.woken.flatMap WakeUp.events → (Honours timeout start r ↔ Harmless timeout start r.woken) := by
    intro hPhase hGoes hPassed
    have hBoth := honours_of_early (fun _ => hPhase)
      (fun x hx hResult => hOn x hx (hGoes x hx hResult)) hPhase hPassed
    exact iff_of_true hBoth.1 hBoth.2
  cases hPhase : r.phase with
  | waiting w =>
      rw [hPhase] at hLedger hQuiet
      exact hQuiet (fun h => h) (fun x hx _ => hLedger.1 x hx) hLedger.2
  | dispatching nowtime c =>
      rw [hPhase] at hLedger hQuiet
      exact hQuiet (fun h => h) (fun x hx _ => hLedger.1 x hx) hLedger.2
  | failed w =>
      rw [hPhase] at hLedger hQuiet
      obtain ⟨xs, x, hWoken, hGoes, hFailed, hPassed⟩ := hLedger
      have hNone : x.events = [] := by rw [WakeUp.events, hFailed]
      refine hQuiet (fun h => h) (fun y hy hResult => ?_) ?_
      · rw [hWoken, List.mem_append, List.mem_singleton] at hy
        rcases hy with hy | rfl
        · exact hGoes y hy
        · exact absurd hFailed hResult
      · rw [hPassed, hWoken, List.flatMap_append, List.flatMap_singleton, hNone, List.append_nil]
  | expired w =>
      rw [hPhase] at hLedger
      obtain ⟨xs, x, hWoken, hGoes, hResult, hLate, hPassed⟩ := hLedger
      have hx : x ∈ r.woken := hWoken ▸ List.mem_append_right xs List.mem_cons_self
      have hTimes := hClock x hx
      rw [ltTimeASubB_total hTimes.1 hTimes.2, timeAGtB_iff (by omega) hTimes.2 hLow hHigh] at hLate
      obtain ⟨hPos, hBehind⟩ := hLate
      have hBefore : ∀ y ∈ xs, y.elapsed start ≤ timeout := fun y hy =>
        hOn y (hWoken ▸ List.mem_append_left _ hy) (hGoes y hy) hPos
      have hAll : r.woken.flatMap WakeUp.events = xs.flatMap WakeUp.events ++ x.events := by
        rw [hWoken, List.flatMap_append, List.flatMap_singleton]
      have hLeft : r.phase.Expired := by
        rw [hPhase]
        trivial
      constructor
      · intro hHonours hPos y hy hResult hLate
        rw [hWoken, List.mem_append, List.mem_singleton] at hy
        rcases hy with hy | rfl
        · exact absurd (hBefore y hy) (not_le.mpr hLate)
        · refine ⟨(hHonours.leaves hPos xs y [] hWoken hResult).mpr ⟨hLeft, rfl⟩, ?_⟩
          have hSame := hHonours.passes
          rw [hPassed, hAll] at hSame
          exact List.self_eq_append_right.mp hSame
      · intro hHarmless
        obtain ⟨hMillis, hNone⟩ := hHarmless hPos x hx hResult hBehind
        refine ⟨fun hForever => ?_, fun _ ys y zs hSplit _ => ?_, by rw [hPassed, hAll, hNone, List.append_nil]⟩
        · rw [hForever] at hPos
          exact absurd hPos (by decide)
        · rw [hWoken] at hSplit
          rcases List.eq_nil_or_concat' zs with rfl | ⟨zs, z, rfl⟩
          · obtain ⟨-, hSame⟩ := List.append_inj' hSplit rfl
            obtain rfl : x = y := (List.cons.inj hSame).1
            exact iff_of_true hMillis ⟨hLeft, rfl⟩
          · -- an earlier wake-up was not late
            rw [← List.cons_append, ← List.append_assoc] at hSplit
            obtain ⟨rfl, -⟩ := List.append_inj' hSplit rfl
            have hEarly := hBefore y (by simp)
            exact iff_of_false (by omega) fun hBoth => by simp at hBoth

end Runs

/-- A run with a timeout of one second that is woken once. -/
def wokenOnce (x : WakeUp) : LoopRun Unit where
  phase := (wake 1000 ⟨0, 0⟩ ⟨Base.ltBaseInit (fun _ => 0) (fun _ => {}) none, (), []⟩ x).1
  woken := [x]
  passed := (wake (κ := Unit) 1000 ⟨0, 0⟩ ⟨Base.ltBaseInit (fun _ => 0) (fun _ => {}) none, (), []⟩ x).2

theorem wokenOnce_looped (cb : Callback Unit) (x : WakeUp) : Looped cb 1000 ⟨0, 0⟩ (wokenOnce x) :=
  .wake x (.begin _)

theorem honours_timedOut : Honours 1000 ⟨0, 0⟩ (wokenOnce ⟨.ready [], ⟨2, 0⟩⟩) := by
  refine (honours_iff_of_run (wokenOnce_looped (fun _ m _ => (m, [])) _) (by decide) (by decide) ?_).mpr ?_
  · exact List.forall_mem_singleton.mpr (by decide)
  · intro _ x hx _ _
    rw [List.mem_singleton.mp hx]
    exact ⟨by decide, rfl⟩

/-- An event reported after a millisecond ends a loop with a timeout of one second, and is dropped. -/
theorem not_honours :
    ¬ ∀ (cb : Callback Unit) (timeout : Int) (start : LtTime) (r : LoopRun Unit), Looped cb timeout start r →
      -2 ^ 31 ≤ timeout → timeout < 2 ^ 31 → ClockFits start r.woken → Honours timeout start r := by
  intro hClaim
  have hHonours := hClaim (fun _ m _ => (m, [])) 1000 ⟨0, 0⟩ (wokenOnce ⟨.ready [⟨1, 0⟩], ⟨0, 1000000⟩⟩)
    (wokenOnce_looped _ _) (by decide) (by decide) (List.forall_mem_singleton.mpr (by decide))
  exact absurd (congrArg List.length hHonours.passes) (by decide)

end Leactor
