import Leactor.Event.DispatchSpec

/-! Removed events and spent one-shot events in runs of the event loop. -/
namespace Leactor

variable {κ : Type*}

/-- The silent events after an act: a removal and the call of a one-shot event
silence an event, and arming it ends that. -/
def mute (silent : Set Nat) : Act → Set Nat
  | .called e oneshot => if oneshot then insert e silent else silent
  | .armed e => silent \ {e}
  | .removed e => insert e silent

def silenced (trace : List Act) : Set Nat := trace.foldl mute ∅

def SilentFrom (silent : Set Nat) : List Act → Prop
  | [] => True
  | a :: acts => (∀ e oneshot, a = .called e oneshot → e ∉ silent) ∧ SilentFrom (mute silent a) acts

/-- Removed events and spent one-shot events stay silent until they are armed again. -/
def StaysSilent (trace : List Act) : Prop := SilentFrom ∅ trace

theorem silentFrom_append {silent : Set Nat} {xs ys : List Act} :
    SilentFrom silent (xs ++ ys) ↔ SilentFrom silent xs ∧ SilentFrom (xs.foldl mute silent) ys := by
  induction xs generalizing silent with
  | nil => simp [SilentFrom]
  | cons a xs ih => simp [SilentFrom, ih, and_assoc]

theorem silenced_append (xs : List Act) (a : Act) : silenced (xs ++ [a]) = mute (silenced xs) a := by
  simp [silenced, List.foldl_append]

theorem staysSilent_append {trace : List Act} {a : Act} (h : StaysSilent trace)
    (ha : ∀ e oneshot, a = .called e oneshot → e ∉ silenced trace) : StaysSilent (trace ++ [a]) :=
  silentFrom_append.mpr ⟨h, ha, trivial⟩

/-- The event is not on the active list, and nothing is linked to it. -/
structure Unlinked (b : Base) (stage : Stage) (e : Nat) : Prop where
  head : b.head ≠ some e
  links : ∀ y, y < b.fresh → b.next y ≠ some e
  cur : stage ≠ .walk (some e)

/-- The event is marked as deleted, or the walk cannot come by it. -/
def Marked (b : Base) (stage : Stage) (e : Nat) : Prop :=
  (b.ev e).deleted ≠ 0 ∨ ¬ (b.ev e).Lags ∧ Unlinked b stage e

def Kept (w : World κ) (stage : Stage) (e : Nat) : Prop := e ∈ silenced w.trace → Marked w.base stage e

/-- An event may be dispatched at once: it is not silent, and if it is one-shot it
is not deferred otherwise and nothing is linked to it. -/
def DirectFits (w : World κ) (stage : Stage) (e : Nat) : Prop :=
  e ∉ silenced w.trace ∧ ((w.base.ev e).Oneshot → ¬ (w.base.ev e).Lags ∧ Unlinked w.base stage e)

/-- What the next turn has to keep to. In the walk it is the callback: it must not
leave its own event removed, unless `LV_ONESHOT` marks the event as deleted. -/
def TurnFits (cb : Callback κ) (nowtime : LtTime) : Config κ → Prop
  | ⟨w, .first, x :: _⟩ => x.Ready → ¬ (w.base.ev x.ptr).Lags → DirectFits w .first x.ptr
  | ⟨w, .second prev, x :: _⟩ => ¬ ((w.base.ev x.ptr).Lags ∧ x.Ready) → DirectFits w (.second prev) x.ptr
  | ⟨w, .walk (some e), _⟩ => w.base.Callable nowtime e →
      e ∈ silenced (w.invoke cb e).trace → ((w.invoke cb e).base.ev e).Oneshot
  | _ => True

/-- The event loop between two iterations, or in one that began at `nowtime`. -/
inductive LoopState (κ : Type*) where
  | idle (w : World κ)
  | busy (nowtime : LtTime) (c : Config κ)

def LoopState.trace : LoopState κ → List Act
  | .idle w => w.trace
  | .busy _ c => c.world.trace

/-- The states that the event loop comes by, where each turn meets a condition on
the state before. Calls may also be made between the iterations. -/
inductive Running (cb : Callback κ) (fits : LtTime → Config κ → Prop) : LoopState κ → Prop where
  | init (m : κ) (p : Nat → Nat) (ev : Nat → EventT) (tail : Option Nat) :
      Running cb fits (.idle ⟨Base.ltBaseInit p ev tail, m, []⟩)
  | call {w : World κ} (c : IoCall) (prior : Running cb fits (.idle w)) : Running cb fits (.idle (w.io c))
  | batch {w : World κ} (nowtime : LtTime) (batch : List EpollEvent) (prior : Running cb fits (.idle w))
      (hKnown : ∀ x ∈ batch, x.ptr < w.base.fresh) : Running cb fits (.busy nowtime ⟨w, .first, batch⟩)
  | turn {nowtime : LtTime} {c d : Config κ} (prior : Running cb fits (.busy nowtime c)) (hFits : fits nowtime c)
      (hTurn : turn cb nowtime c = .again d) : Running cb fits (.busy nowtime d)
  | exit {nowtime : LtTime} {c : Config κ} {w : World κ} (prior : Running cb fits (.busy nowtime c))
      (hTurn : turn cb nowtime c = .exit w) : Running cb fits (.idle w)

section Calls

variable {b b' : Base} {stage : Stage} {e : Nat}

/-- A change that keeps the event and makes no links keeps the mark. -/
theorem Marked.frame {stage' : Stage} (h : Marked b stage e) (hFlag : (b'.ev e).flag = (b.ev e).flag)
    (hDeleted : (b'.ev e).deleted = (b.ev e).deleted) (hUnlinked : Unlinked b stage e → Unlinked b' stage' e) :
    Marked b' stage' e := by
  rw [Marked, hDeleted, EventT.Lags, hFlag]
  exact h.imp_right (And.imp_right hUnlinked)

theorem Unlinked.io (h : Unlinked b stage e) (c : IoCall) : Unlinked (b.io c) stage e where
  head := by
    rw [Base.head_io]
    exact h.head
  links y hy hLink := by
    obtain ⟨hOld, hLink⟩ := Base.link_io hy hLink
    exact h.links y hOld hLink
  cur := h.cur

theorem Marked.io (h : Marked b stage e) {c : IoCall} (hSame : ((b.io c).ev e).active = (b.ev e).active) :
    Marked (b.io c) stage e :=
  h.frame (congrArg Prod.fst hSame) (congrArg (fun y : Nat × Nat × Option Nat => y.2.1) hSame) fun hOff => hOff.io c

/-- A call silences only the event that it marks as deleted. -/
theorem Kept.io {w : World κ} (h : Kept w stage e) (c : IoCall) : Kept (w.io c) stage e := by
  intro he
  have hActive := w.base.active_io c e
  rw [World.io, silenced_append] at he
  cases c with
  | add flag timeout now realloc =>
      have hNe : e ≠ w.base.fresh := he.2
      simp only [if_neg hNe] at hActive
      exact (h he.1).io hActive
  | mod e' flag timeout now realloc =>
      have hNe : e ≠ e' := he.2
      simp only [if_neg hNe] at hActive
      exact (h he.1).io hActive
  | remove e' =>
      by_cases hHere : e = e'
      · simp only [if_pos hHere] at hActive
        have hDeleted : ((w.base.io (.remove e')).ev e).deleted = 1 :=
          congrArg (fun y : Nat × Nat × Option Nat => y.2.1) hActive
        exact Or.inl (by rw [World.io, hDeleted]; exact one_ne_zero)
      · simp only [if_neg hHere] at hActive
        exact (h (he.resolve_left hHere)).io hActive

theorem Kept.foldl_io {w : World κ} (h : Kept w stage e) (cs : List IoCall) : Kept (cs.foldl World.io w) stage e := by
  induction cs generalizing w with
  | nil => exact h
  | cons c cs ih => exact ih (h.io c)

theorem staysSilent_io {w : World κ} (h : StaysSilent w.trace) (c : IoCall) : StaysSilent (w.io c).trace := by
  refine staysSilent_append h fun e oneshot hCalled => ?_
  cases c <;> cases hCalled

theorem staysSilent_foldl_io {w : World κ} (h : StaysSilent w.trace) (cs : List IoCall) :
    StaysSilent (cs.foldl World.io w).trace := by
  induction cs generalizing w with
  | nil => exact h
  | cons c cs ih => exact ih (staysSilent_io h c)

/-- Invoking the callback of an event that is not silent. -/
theorem StaysSilent.invoke {w : World κ} (h : StaysSilent w.trace) (cb : Callback κ) (he : e ∉ silenced w.trace) :
    StaysSilent (w.invoke cb e).trace := by
  refine staysSilent_foldl_io (staysSilent_append h fun e' oneshot hCalled => ?_) _
  cases hCalled
  exact he

/-- The callback of another event keeps the mark. -/
theorem Kept.invoke_other {w : World κ} (h : Kept w stage e) (cb : Callback κ) {y : Nat} (hNe : e ≠ y) :
    Kept (w.invoke cb y) stage e := by
  refine Kept.foldl_io (fun he => ?_) _
  simp only [silenced_append, mute] at he
  split_ifs at he
  · exact h (he.resolve_left hNe)
  · exact h he

/-- A direct call keeps the mark. -/
theorem Kept.direct {w : World κ} (h : Kept w stage e) (cb : Callback κ) {y : Nat} (hFits : DirectFits w stage y) :
    Kept (w.invoke cb y) stage e := by
  by_cases hNe : e = y
  · subst hNe
    refine Kept.foldl_io (fun he => ?_) _
    simp only [silenced_append, mute] at he
    split_ifs at he with hOneshot
    · exact Or.inr (hFits.2 (of_decide_eq_true hOneshot))
    · exact h he
  · exact h.invoke_other cb hNe

end Calls

section Turns

variable {cb : Callback κ} {nowtime : LtTime}

/-- The event the walk stands at is not silent, if it is live. -/
theorem Kept.callable {w : World κ} {e : Nat} (h : Kept w (.walk (some e)) e) (hCallable : w.base.Callable nowtime e) :
    e ∉ silenced w.trace := fun he =>
  (h he).elim (fun hDeleted => hDeleted hCallable.1) fun hOff => hOff.2.cur rfl

/-- A change in the fields of another event that makes no links. -/
theorem Marked.modify_other {b : Base} {stage stage' : Stage} {e y : Nat} (h : Marked b stage y) (hNe : y ≠ e)
    {g : EventT → EventT} (hg : ∀ ev, (g ev).nextActiveEv = ev.nextActiveEv)
    (hCur : Unlinked b stage y → stage' ≠ .walk (some y)) : Marked (b.modify e g) stage' y := by
  have hEv : (b.modify e g).ev y = b.ev y := by rw [Base.ev_modify, if_neg hNe]
  refine h.frame (by rw [hEv]) (by rw [hEv]) fun hOff => ⟨hOff.head, fun z hz => ?_, hCur hOff⟩
  have hNext : (b.modify e g).next z = b.next z := by
    rw [Base.next, Base.ev_modify]
    split_ifs
    · exact hg _
    · rfl
  rw [hNext]
  exact hOff.links z hz

/-- The walk goes on behind an event: the marks stay. -/
theorem Kept.process {w : World κ} {e : Nat} (h : ∀ y, Kept w (.walk (some e)) y) (he : e < w.base.fresh)
    (hClosed : w.base.Closed) (hFits : TurnFits cb nowtime ⟨w, .walk (some e), []⟩) (y : Nat) :
    Kept (w.process cb nowtime e) (.walk ((w.process cb nowtime e).base.next e)) y := by
  intro hy
  unfold World.process at hy ⊢
  split_ifs at hy ⊢ with hExpired hDeleted
  · by_cases hNe : y = e
    · subst hNe
      exact Or.inl (by simp [World.modify, Base.modify])
    · refine (h y hy).modify_other hNe (fun _ => rfl) fun hOff hCur => hOff.links e he ?_
      rw [← Stage.walk.inj hCur]
      simp [Base.next, World.modify, Base.modify]
  · exact (h y hy).frame rfl rfl fun hOff => ⟨hOff.head, hOff.links, fun hCur => hOff.links e he (Stage.walk.inj hCur)⟩
  · have hCallable : w.base.Callable nowtime e := ⟨not_not.mp hDeleted, hExpired⟩
    by_cases hNe : y = e
    · subst hNe
      refine Or.inl ?_
      rw [World.modify, Base.ev_modify, if_pos rfl]
      exact hFits hCallable hy
    · refine (((h y).invoke_other cb hNe) hy).modify_other hNe (fun _ => rfl) fun hOff hCur => ?_
      refine hOff.links e (he.trans_le (hClosed.invoke cb e).2) ?_
      rw [← Stage.walk.inj hCur]
      simp [Base.next, World.modify, Base.modify]

/-- The property of a run, with the invariant that carries it. -/
structure Silent (c : Config κ) : Prop extends Sane c where
  stays : StaysSilent c.world.trace
  kept : ∀ e, Kept c.world c.stage e

theorem Silent.step {c d : Config κ} (h : Silent c) (hFits : TurnFits cb nowtime c)
    (hStep : TurnStep cb nowtime c d) : Silent d := by
  refine ⟨h.toSane.step hStep, ?_, fun e => ?_⟩
  · cases hStep with
    | ended | defer | skip | linked | link => exact h.stays
    | direct w x xs hReady hLags => exact h.stays.invoke cb (hFits hReady hLags).1
    | late w prev x xs hDeferred => exact h.stays.invoke cb (hFits hDeferred).1
    | process w e xs =>
        change StaysSilent (w.process cb nowtime e).trace
        unfold World.process
        split_ifs with hExpired hDeleted
        · exact h.stays
        · exact h.stays
        · exact h.stays.invoke cb ((h.kept e).callable ⟨not_not.mp hDeleted, hExpired⟩)
  · cases hStep with
    | ended w => exact fun he => (h.kept e he).frame rfl rfl fun hOff =>
        ⟨hOff.head, hOff.links, fun hCur => hOff.head (Stage.walk.inj hCur)⟩
    | defer w x xs hReady hLags =>
        refine fun he => (h.kept e he).imp_right fun hOff => ⟨hOff.1, ?_, hOff.2.links, fun hNot => nomatch hNot⟩
        rintro hSame
        exact hOff.1 (Option.some.inj hSame ▸ hLags)
    | direct w x xs hReady hLags => exact (h.kept e).direct cb (hFits hReady hLags)
    | skip w x xs => exact h.kept e
    | linked w prev => exact fun he => (h.kept e he).frame rfl rfl fun hOff =>
        ⟨hOff.head, hOff.links, fun hCur => hOff.head (Stage.walk.inj hCur)⟩
    | link w prev x xs hDeferred =>
        refine fun he => (h.kept e he).imp (fun hDeleted => ?_) fun hOff => ?_
        · change ((w.base.modify prev _).ev e).deleted ≠ 0
          rw [Base.ev_modify]
          split_ifs <;> exact hDeleted
        · have hNe : e ≠ x.ptr := fun hSame => hOff.1 (hSame ▸ hDeferred.1)
          refine ⟨?_, hOff.2.head, fun z hz hLink => ?_, fun hNot => nomatch hNot⟩
          · change ¬ ((w.base.modify prev _).ev e).Lags
            rw [Base.ev_modify]
            split_ifs <;> exact hOff.1
          · change (w.base.modify prev _).next z = some e at hLink
            rw [Base.next, Base.ev_modify] at hLink
            split_ifs at hLink
            · exact hNe (Option.some.inj hLink).symm
            · exact hOff.2.links z hz hLink
    | late w prev x xs hDeferred => exact (h.kept e).direct cb (hFits hDeferred)
    | process w y xs => exact Kept.process h.kept (h.cur y rfl) h.closed hFits e

/-- In every run whose turns fit, removed events and spent one-shot events stay silent.
The callbacks are any ones, and may themselves add, change and remove events while later
ones of the same batch wait. -/
theorem staysSilent_of_running {s : LoopState κ} (hRun : Running cb (TurnFits cb) s) : StaysSilent s.trace := by
  have hInv : match s with
      | .idle w => w.base.Settled ∧ StaysSilent w.trace ∧ ∀ e, Kept w .first e
      | .busy _ c => Silent c := by
    induction hRun with
    | init m p ev tail =>
        exact ⟨⟨rfl, fun e z he => absurd he (Nat.not_lt_zero e)⟩, trivial, fun e he => absurd he (Set.notMem_empty e)⟩
    | call c prior ih =>
        exact ⟨⟨by rw [World.io, Base.head_io, ih.1.head], ih.1.closed.io c⟩, staysSilent_io ih.2.1 c,
          fun e => (ih.2.2 e).io c⟩
    | batch nowtime batch prior hKnown ih => exact ⟨ih.1.sane hKnown, ih.2.1, ih.2.2⟩
    | turn prior hFits hTurn ih => exact ih.step hFits (turn_again hTurn)
    | @exit nowtime c w prior hTurn ih =>
        obtain ⟨hWorld, hStage⟩ := turn_exit hTurn
        refine ⟨ih.toSane.settled hTurn, ?_, fun e he => ?_⟩
        · rw [hWorld]
          exact ih.stays
        · rw [hWorld] at he ⊢
          exact (ih.kept e he).frame rfl rfl fun hOff =>
            ⟨by rintro ⟨⟩, hOff.links, by rintro ⟨⟩⟩
  cases s with
  | idle w => exact hInv.2.1
  | busy nowtime c => exact hInv.stays

def oneshotAdded : World Unit :=
  World.io ⟨Base.ltBaseInit (fun _ => 0) (fun _ => {}) none, (), []⟩ (.add lvOneshot noTimeout ⟨0, 0⟩ true)

theorem running_oneshot {fits : LtTime → Config Unit → Prop}
    (hFits : fits ⟨1, 0⟩ ⟨oneshotAdded, .first, [⟨epollin, 0⟩]⟩) :
    Running idle fits (.busy ⟨1, 0⟩ ⟨oneshotAdded.invoke idle 0, .first, []⟩) :=
  .turn (.batch ⟨1, 0⟩ [⟨epollin, 0⟩] (.call (.add lvOneshot noTimeout ⟨0, 0⟩ true) (.init () _ _ _)) (by simp; decide))
    hFits rfl

/-- A one-shot event that is reported twice is called twice. -/
theorem not_staysSilent_oneshot :
    ¬ ∀ (κ : Type) (cb : Callback κ) (s : LoopState κ), Running cb (fun _ _ => True) s → StaysSilent s.trace := by
  intro hClaim
  have hOnce : Running idle (fun _ _ => True) (.idle (((oneshotAdded.invoke idle 0).setList none none).setList none none)) :=
    .exit (.turn (running_oneshot trivial) trivial rfl) rfl
  have hTwice := hClaim Unit idle _
    (.turn (d := ⟨(((oneshotAdded.invoke idle 0).setList none none).setList none none).invoke idle 0, .first, []⟩)
      (.batch ⟨1, 0⟩ [⟨epollin, 0⟩] hOnce (by simp; decide)) trivial rfl)
  have hTrace : ((((oneshotAdded.invoke idle 0).setList none none).setList none none).invoke idle 0).trace =
      [.armed 0, .called 0 true, .called 0 true] := by decide
  simp only [LoopState.trace, hTrace, StaysSilent, SilentFrom, mute] at hTwice
  exact hTwice.2.2.1 0 true rfl (Or.inl rfl)

theorem staysSilent_of_running_oneshot : StaysSilent (oneshotAdded.invoke idle 0).trace := by
  refine staysSilent_of_running (running_oneshot fun _ _ => ⟨?_, fun _ => ⟨by decide, ?_⟩⟩)
  · have hTrace : oneshotAdded.trace = [.armed 0] := by decide
    simp [hTrace, silenced, mute]
  · refine ⟨by decide, fun y hy => ?_, fun hNot => nomatch hNot⟩
    have hZero : y < 1 := hy
    interval_cases y
    decide

end Turns

end Leactor
