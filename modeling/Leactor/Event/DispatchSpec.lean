import Leactor.Event.Dispatch

/-! Which callbacks an iteration of the event loop invokes. -/
namespace Leactor

variable {κ : Type*}

def calls (trace : List Act) : List Nat :=
  trace.filterMap fun
    | .called e _ => some e
    | _ => none

@[simp] theorem calls_nil : calls [] = [] := rfl

theorem calls_append (xs ys : List Act) : calls (xs ++ ys) = calls xs ++ calls ys := List.filterMap_append

def Base.Deferred (b : Base) (x : EpollEvent) : Prop := x.Ready ∧ (b.ev x.ptr).Lags

instance (b : Base) : DecidablePred b.Deferred := fun _ => inferInstanceAs (Decidable (_ ∧ _))

namespace Base

/-- The registered events and the list are the same, up to the links. -/
structure SameEvs (b b' : Base) : Prop where
  fresh : b.fresh ≤ b'.fresh
  flag : ∀ x, x < b.fresh → (b'.ev x).flag = (b.ev x).flag
  deleted : ∀ x, x < b.fresh → (b'.ev x).deleted = (b.ev x).deleted
  endtime : ∀ x, x < b.fresh → (b'.ev x).endtime = (b.ev x).endtime

structure SameLists (b b' : Base) : Prop extends SameEvs b b' where
  head : b'.head = b.head
  tail : b'.tail = b.tail
  next : ∀ x, x < b.fresh → (b'.ev x).nextActiveEv = (b.ev x).nextActiveEv

theorem SameEvs.refl (b : Base) : b.SameEvs b := ⟨le_refl _, fun _ _ => rfl, fun _ _ => rfl, fun _ _ => rfl⟩

theorem SameEvs.trans {b b' b'' : Base} (h : b.SameEvs b') (h' : b'.SameEvs b'') : b.SameEvs b'' where
  fresh := h.fresh.trans h'.fresh
  flag x hx := (h'.flag x (hx.trans_le h.fresh)).trans (h.flag x hx)
  deleted x hx := (h'.deleted x (hx.trans_le h.fresh)).trans (h.deleted x hx)
  endtime x hx := (h'.endtime x (hx.trans_le h.fresh)).trans (h.endtime x hx)

theorem SameLists.refl (b : Base) : b.SameLists b := ⟨.refl b, rfl, rfl, fun _ _ => rfl⟩

theorem SameLists.trans {b b' b'' : Base} (h : b.SameLists b') (h' : b'.SameLists b'') : b.SameLists b'' where
  toSameEvs := h.toSameEvs.trans h'.toSameEvs
  head := h'.head.trans h.head
  tail := h'.tail.trans h.tail
  next x hx := (h'.next x (hx.trans_le h.fresh)).trans (h.next x hx)

theorem SameEvs.deferred {b b' : Base} (h : b.SameEvs b') {x : EpollEvent} (hx : x.ptr < b.fresh) :
    b'.Deferred x ↔ b.Deferred x := by
  rw [Deferred, Deferred, EventT.Lags, h.flag _ hx]
  rfl

end Base

namespace World

theorem base_foldl_io (cs : List IoCall) (w : World κ) : (cs.foldl io w).base = cs.foldl Base.io w.base := by
  induction cs generalizing w with
  | nil => rfl
  | cons c cs ih => exact ih (w.io c)

theorem calls_foldl_io (cs : List IoCall) (w : World κ) : calls (cs.foldl io w).trace = calls w.trace := by
  induction cs generalizing w with
  | nil => rfl
  | cons c cs ih =>
      rw [List.foldl_cons, ih, io, calls_append]
      cases c <;> simp [Base.act, calls]

theorem base_invoke (cb : Callback κ) (w : World κ) (e : Nat) :
    (w.invoke cb e).base = (cb e w.mem w.base).2.foldl Base.io w.base :=
  base_foldl_io _ _

theorem calls_invoke (cb : Callback κ) (w : World κ) (e : Nat) :
    calls (w.invoke cb e).trace = calls w.trace ++ [e] := by
  rw [invoke, calls_foldl_io, calls_append]
  rfl

end World

/-- The callbacks do not touch the registered events and the active list. -/
def KeepsLists (cb : Callback κ) : Prop :=
  ∀ (e : Nat) (m : κ) (b : Base), b.SameLists ((cb e m b).2.foldl Base.io b)

theorem KeepsLists.invoke {cb : Callback κ} (h : KeepsLists cb) (w : World κ) (e : Nat) :
    w.base.SameLists (w.invoke cb e).base := by
  rw [World.base_invoke]
  exact h e w.mem w.base

section Iteration

variable {cb : Callback κ} {nowtime : LtTime}

/-- The first loop runs over events that are not deferred. -/
theorem reaches_first (hCb : KeepsLists cb) (pre rest : List EpollEvent) (w : World κ)
    (hKnown : ∀ x ∈ pre, x.ptr < w.base.fresh) (hDirect : ∀ x ∈ pre, ¬ w.base.Deferred x) :
    ∃ w', Loop.Reaches (turn cb nowtime) ⟨w, .first, pre ++ rest⟩ ⟨w', .first, rest⟩ ∧
      w.base.SameLists w'.base ∧
      calls w'.trace = calls w.trace ++ (pre.filter fun x => x.Ready).map EpollEvent.ptr := by
  induction pre generalizing w with
  | nil => exact ⟨w, .refl _, .refl _, by simp⟩
  | cons x pre ih =>
      rw [List.forall_mem_cons] at hKnown hDirect
      by_cases hReady : x.Ready
      · have hLag : ¬ (w.base.ev x.ptr).Lags := fun hLag => hDirect.1 ⟨hReady, hLag⟩
        have hSame := hCb.invoke w x.ptr
        obtain ⟨w', hRun, hSame', hCalls⟩ := ih (w.invoke cb x.ptr)
          (fun y hy => (hKnown.2 y hy).trans_le hSame.fresh)
          (fun y hy => mt (hSame.deferred (hKnown.2 y hy)).mp (hDirect.2 y hy))
        refine ⟨w', .head ?_ hRun, hSame.trans hSame', ?_⟩
        · rw [List.cons_append, turn, if_pos hReady, if_neg hLag]
        · rw [hCalls, World.calls_invoke, List.filter_cons_of_pos (by simpa using hReady)]
          simp
      · obtain ⟨w', hRun, hSame, hCalls⟩ := ih w hKnown.2 hDirect.2
        refine ⟨w', .head ?_ hRun, hSame, ?_⟩
        · rw [List.cons_append, turn, if_neg hReady]
        · rw [hCalls, List.filter_cons_of_neg (by simpa using hReady)]

/-- The links lead from one event over others to `last`. -/
inductive Linked (next : Nat → Option Nat) : Option Nat → List Nat → Option Nat → Prop where
  | nil (last : Option Nat) : Linked next last [] last
  | cons {e : Nat} {es : List Nat} {last : Option Nat} (hRest : Linked next (next e) es last) :
      Linked next (some e) (e :: es) last

theorem Linked.congr {next next' : Nat → Option Nat} {cur last : Option Nat} {es : List Nat}
    (h : Linked next cur es last) (hSame : ∀ e ∈ es, next' e = next e) : Linked next' cur es last := by
  induction h with
  | nil last => exact .nil last
  | cons _ ih =>
      rw [List.forall_mem_cons] at hSame
      refine .cons ?_
      rw [hSame.1]
      exact ih hSame.2

theorem Linked.start {next : Nat → Option Nat} {cur last : Option Nat} {es : List Nat}
    (h : Linked next cur es last) : cur = last ∨ ∃ z ∈ es, cur = some z := by
  cases h with
  | nil => exact Or.inl rfl
  | cons hRest => exact Or.inr ⟨_, List.mem_cons_self, rfl⟩

/-- Every event of a row is linked to another one or to the end. -/
theorem Linked.next_mem {next : Nat → Option Nat} {cur last : Option Nat} {es : List Nat}
    (h : Linked next cur es last) {e : Nat} (he : e ∈ es) : next e = last ∨ ∃ z ∈ es, next e = some z := by
  induction h with
  | nil => exact nomatch he
  | @cons e' es last hRest ih =>
      rcases List.mem_cons.mp he with rfl | hMem
      · exact hRest.start.imp_right fun ⟨z, hz, hNext⟩ => ⟨z, List.mem_cons_of_mem _ hz, hNext⟩
      · exact (ih hMem).imp_right fun ⟨z, hz, hNext⟩ => ⟨z, List.mem_cons_of_mem _ hz, hNext⟩

theorem Linked.append {next : Nat → Option Nat} {cur mid last : Option Nat} {es es' : List Nat}
    (h : Linked next cur es mid) (h' : Linked next mid es' last) : Linked next cur (es ++ es') last := by
  induction h with
  | nil => exact h'
  | cons _ ih => exact .cons (ih h')

/-- A set that the links do not leave holds the row that starts in it. -/
theorem Linked.forall_mem {next : Nat → Option Nat} {P : Nat → Prop} {cur last : Option Nat} {es : List Nat}
    (h : Linked next cur es last) (hClosed : ∀ e z, P e → next e = some z → P z) (hCur : ∀ e, cur = some e → P e) :
    ∀ e ∈ es, P e := by
  induction h with
  | nil => exact List.forall_mem_nil _
  | @cons e es last _ ih =>
      have he := hCur e rfl
      exact List.forall_mem_cons.mpr ⟨he, ih fun z hz => hClosed e z he hz⟩

/-- The row from one of its events on. -/
theorem Linked.drop {next : Nat → Option Nat} {cur last : Option Nat} {e : Nat} {back : List Nat} (front : List Nat)
    (h : Linked next cur (front ++ e :: back) last) : Linked next (some e) (e :: back) last := by
  induction front generalizing cur with
  | nil =>
      cases h with
      | cons hRest => exact .cons hRest
  | cons _ front ih =>
      cases h with
      | cons hRest => exact ih hRest

/-- The links from one place to NULL go one way, so that a row on that way is its first part. -/
theorem Linked.split {next : Nat → Option Nat} {cur mid : Option Nat} {es whole : List Nat}
    (h : Linked next cur es mid) (hWhole : Linked next cur whole none) :
    ∃ rest, whole = es ++ rest ∧ Linked next mid rest none := by
  induction h generalizing whole with
  | nil => exact ⟨whole, rfl, hWhole⟩
  | cons _ ih =>
      cases hWhole with
      | cons hRest =>
          obtain ⟨rest, rfl, hBehind⟩ := ih hRest
          exact ⟨rest, rfl, hBehind⟩

/-- Links that lead to NULL pass no event twice. -/
theorem Linked.nodup {next : Nat → Option Nat} {cur : Option Nat} {es : List Nat} (h : Linked next cur es none) :
    es.Nodup := by
  generalize hEnd : (none : Option Nat) = last at h
  induction h with
  | nil => exact List.nodup_nil
  | @cons e es last hRest ih =>
      subst hEnd
      refine List.nodup_cons.mpr ⟨fun hMem => ?_, ih rfl⟩
      obtain ⟨front, back, rfl⟩ := List.append_of_mem hMem
      -- from the second pass on the links lead to NULL once more, in fewer turns
      obtain ⟨rest, hSame, -⟩ := (Linked.cons hRest).split (hRest.drop front)
      have hLength := congrArg List.length hSame
      simp only [List.length_append, List.length_cons] at hLength
      omega

def Base.next (b : Base) (e : Nat) : Option Nat := (b.ev e).nextActiveEv

/-- The events of a row of batch entries that go to the active list. -/
def Base.deferred (b : Base) (xs : List EpollEvent) : List Nat :=
  (xs.filter fun x => b.Deferred x).map EpollEvent.ptr

def Base.direct (b : Base) (xs : List EpollEvent) : List Nat :=
  (xs.filter fun x => ¬ b.Deferred x).map EpollEvent.ptr

theorem Base.SameEvs.deferred_eq {b b' : Base} (h : b.SameEvs b') {xs : List EpollEvent}
    (hKnown : ∀ x ∈ xs, x.ptr < b.fresh) : b'.deferred xs = b.deferred xs := by
  unfold Base.deferred
  congr 1
  exact List.filter_congr fun x hx => by simp only [h.deferred (hKnown x hx)]

theorem Base.SameEvs.direct_eq {b b' : Base} (h : b.SameEvs b') {xs : List EpollEvent}
    (hKnown : ∀ x ∈ xs, x.ptr < b.fresh) : b'.direct xs = b.direct xs := by
  unfold Base.direct
  congr 1
  exact List.filter_congr fun x hx => by simp only [h.deferred (hKnown x hx)]

structure Queued (w : World κ) (prev : Nat) (post : List EpollEvent) (w' : World κ) : Prop where
  same : w.base.SameEvs w'.base
  invoked : calls w'.trace = calls w.trace ++ w.base.direct post
  others : ∀ y, y < w.base.fresh → y ∉ prev :: w.base.deferred post → w'.base.next y = w.base.next y
  linked : Linked w'.base.next (some prev) (prev :: w.base.deferred post)
    (w.base.next ((w.base.deferred post).getLastD prev))

theorem World.sameEvs_modify (w : World κ) (e : Nat) {g : EventT → EventT}
    (hFlag : (g (w.base.ev e)).flag = (w.base.ev e).flag)
    (hDeleted : (g (w.base.ev e)).deleted = (w.base.ev e).deleted)
    (hEnd : (g (w.base.ev e)).endtime = (w.base.ev e).endtime) : w.base.SameEvs (w.modify e g).base := by
  constructor
  · exact le_refl _
  all_goals
    intro x _
    by_cases hx : x = e
    · simp [World.modify, Base.modify, hx, hFlag, hDeleted, hEnd]
    · simp [World.modify, Base.modify, hx]

theorem World.next_modify_other (w : World κ) {e x : Nat} (g : EventT → EventT) (h : x ≠ e) :
    (w.modify e g).base.next x = w.base.next x := by
  simp [Base.next, World.modify, Base.modify, h]

variable {w w' : World κ} {prev : Nat} {x : EpollEvent} {post : List EpollEvent}

theorem mem_map_of_deferred {b : Base} {e : Nat} (h : e ∈ b.deferred post) : e ∈ post.map EpollEvent.ptr := by
  obtain ⟨y, hy, rfl⟩ := List.mem_map.mp h
  exact List.mem_map_of_mem (List.mem_of_mem_filter hy)

/-- An entry that is linked behind `prev`, and the rest. The entry becomes the end of
the list, so that the link of `prev` is written once. -/
theorem Queued.defer (hPrev : prev < w.base.fresh) (hKnown : ∀ y ∈ post, y.ptr < w.base.fresh)
    (hDeferred : w.base.Deferred x) (hOff : prev ∉ x.ptr :: post.map EpollEvent.ptr)
    (h : Queued (w.modify prev fun ev => { ev with nextActiveEv := some x.ptr }) x.ptr post w') :
    Queued w prev (x :: post) w' := by
  have hSame := w.sameEvs_modify prev (g := fun ev => { ev with nextActiveEv := some x.ptr }) rfl rfl rfl
  have hList : w.base.deferred (x :: post) = x.ptr :: w.base.deferred post := by
    simp [Base.deferred, hDeferred]
  have hDirect : w.base.direct (x :: post) = w.base.direct post := by
    simp [Base.direct, hDeferred]
  obtain ⟨hEvs, hCalls, hOthers, hLinked⟩ := h
  rw [hSame.deferred_eq hKnown] at hOthers hLinked
  rw [hSame.direct_eq hKnown] at hCalls
  have hOff' : prev ∉ x.ptr :: w.base.deferred post := by
    rw [List.mem_cons, not_or] at hOff ⊢
    exact ⟨hOff.1, mt mem_map_of_deferred hOff.2⟩
  constructor
  · exact hSame.trans hEvs
  · rw [hDirect]
    exact hCalls
  · intro y hy hMem
    rw [hList, List.mem_cons, not_or] at hMem
    rw [hOthers y hy hMem.2, World.next_modify_other _ _ hMem.1]
  · have hNext : w'.base.next prev = some x.ptr := by
      rw [hOthers prev hPrev hOff']
      simp [Base.next, World.modify, Base.modify]
    rw [hList, List.getLastD_cons]
    refine .cons ?_
    rw [hNext]
    have hLast : (w.base.deferred post).getLastD x.ptr ≠ prev := by
      intro hSame
      exact hOff' (hSame ▸ List.getLastD_mem_cons)
    rwa [World.next_modify_other _ _ hLast] at hLinked

/-- An entry whose callback is invoked at once, and the rest. The callback may do what
it likes, as long as the list and the registered events stay as they are. -/
theorem Queued.direct (hPrev : prev < w.base.fresh) (hKnown : ∀ y ∈ post, y.ptr < w.base.fresh)
    (hDeferred : ¬ w.base.Deferred x) {w₁ : World κ} (hSame : w.base.SameLists w₁.base)
    (hCall : calls w₁.trace = calls w.trace ++ [x.ptr]) (h : Queued w₁ prev post w') :
    Queued w prev (x :: post) w' := by
  have hList : w.base.deferred (x :: post) = w.base.deferred post := by
    simp [Base.deferred, hDeferred]
  have hDirect : w.base.direct (x :: post) = x.ptr :: w.base.direct post := by
    simp [Base.direct, hDeferred]
  obtain ⟨hEvs, hCalls, hOthers, hLinked⟩ := h
  rw [hSame.deferred_eq hKnown] at hOthers hLinked
  rw [hSame.direct_eq hKnown] at hCalls
  constructor
  · exact hSame.toSameEvs.trans hEvs
  · rw [hDirect, hCalls, hCall, List.append_assoc]
    rfl
  · intro y hy hMem
    rw [hList] at hMem
    exact (hOthers y (hy.trans_le hSame.fresh) hMem).trans (hSame.next y hy)
  · rw [hList]
    have hLast : w₁.base.next ((w.base.deferred post).getLastD prev) =
        w.base.next ((w.base.deferred post).getLastD prev) := by
      refine hSame.next _ ?_
      have hMem : (w.base.deferred post).getLastD prev ∈ prev :: w.base.deferred post := List.getLastD_mem_cons
      rcases List.mem_cons.mp hMem with hHere | hMem
      · rwa [hHere]
      · obtain ⟨y, hy, hPtr⟩ := List.mem_map.mp (mem_map_of_deferred hMem)
        rw [← hPtr]
        exact hKnown y hy
    rwa [hLast] at hLinked

/-- The second loop links the deferred events behind the first one, and invokes
the callbacks of all others. -/
theorem reaches_second (hCb : KeepsLists cb) (post : List EpollEvent) (prev : Nat) (w : World κ)
    (hPrev : prev < w.base.fresh) (hKnown : ∀ x ∈ post, x.ptr < w.base.fresh)
    (hDistinct : (prev :: post.map EpollEvent.ptr).Nodup) :
    ∃ w', Loop.Reaches (turn cb nowtime) ⟨w, .second prev, post⟩ ⟨w', .walk w.base.head, []⟩ ∧
      Queued w prev post w' := by
  induction post generalizing prev w with
  | nil =>
      refine ⟨w.setList w.base.head (some prev), .head (by rw [turn]) (.refl _), ?_⟩
      exact ⟨⟨le_refl _, fun _ _ => rfl, fun _ _ => rfl, fun _ _ => rfl⟩, by simp [Base.direct, World.setList],
        fun _ _ _ => rfl, .cons (.nil _)⟩
  | cons x post ih =>
      rw [List.forall_mem_cons] at hKnown
      rw [List.map_cons, List.nodup_cons, List.mem_cons, not_or] at hDistinct
      by_cases hDeferred : w.base.Deferred x
      · have hSame := w.sameEvs_modify prev (g := fun ev => { ev with nextActiveEv := some x.ptr }) rfl rfl rfl
        obtain ⟨w', hRun, hQueued⟩ := ih x.ptr _ (hKnown.1.trans_le hSame.fresh)
          (fun y hy => (hKnown.2 y hy).trans_le hSame.fresh) hDistinct.2
        refine ⟨w', .head ?_ hRun, hQueued.defer hPrev hKnown.2 hDeferred ?_⟩
        · rw [turn, if_pos ⟨hDeferred.2, hDeferred.1⟩]
        · exact List.mem_cons.not.mpr (not_or.mpr hDistinct.1)
      · have hSame := hCb.invoke w x.ptr
        obtain ⟨w', hRun, hQueued⟩ := ih prev (w.invoke cb x.ptr) (hPrev.trans_le hSame.fresh)
          (fun y hy => (hKnown.2 y hy).trans_le hSame.fresh)
          (List.nodup_cons.mpr ⟨hDistinct.1.2, (List.nodup_cons.mp hDistinct.2).2⟩)
        rw [hSame.head] at hRun
        refine ⟨w', .head ?_ hRun, hQueued.direct hPrev hKnown.2 hDeferred hSame
          (World.calls_invoke cb w x.ptr)⟩
        rw [turn, if_neg fun hNot => hDeferred ⟨hNot.2, hNot.1⟩]

/-- The body of the loop invokes the callback of the event: it is not deleted, and its
`endtime` lies before `nowtime`. -/
def Base.Callable (b : Base) (nowtime : LtTime) (e : Nat) : Prop :=
  (b.ev e).deleted = 0 ∧ ¬ ltEvCheckTimeout (b.ev e) nowtime

instance (b : Base) (nowtime : LtTime) : DecidablePred (b.Callable nowtime) :=
  fun _ => inferInstanceAs (Decidable (_ ∧ _))

structure Walked (nowtime : LtTime) (w : World κ) (es : List Nat) (w' : World κ) : Prop where
  invoked : calls w'.trace = calls w.trace ++ es.filter fun e => w.base.Callable nowtime e
  fresh : w.base.fresh ≤ w'.base.fresh
  next : ∀ y, y < w.base.fresh → w'.base.next y = w.base.next y
  others : ∀ y, y < w.base.fresh → y ∉ es → (w'.base.Callable nowtime y ↔ w.base.Callable nowtime y)

theorem World.callable_modify_other (w : World κ) {e y : Nat} (g : EventT → EventT) (h : y ≠ e) :
    (w.modify e g).base.Callable nowtime y ↔ w.base.Callable nowtime y := by
  simp [Base.Callable, modify, Base.modify, h]

theorem World.process_callable {w : World κ} {e : Nat} (h : w.base.Callable nowtime e) :
    w.process cb nowtime e = (w.invoke cb e).modify e fun ev => { ev with deleted := ev.flag &&& lvOneshot } := by
  rw [process, if_neg h.2, if_neg (not_not.mpr h.1)]

/-- The body of the loop writes no links. -/
theorem next_process (hCb : KeepsLists cb) (w : World κ) (e : Nat) {y : Nat} (hy : y < w.base.fresh) :
    (w.process cb nowtime e).base.next y = w.base.next y := by
  have hModify : ∀ (w : World κ) (g : EventT → EventT), (∀ ev, (g ev).nextActiveEv = ev.nextActiveEv) →
      (w.modify e g).base.next y = w.base.next y := by
    intro w g hg
    by_cases hNe : y = e
    · simp [Base.next, World.modify, Base.modify, hNe, hg]
    · exact World.next_modify_other _ _ hNe
  unfold World.process
  split_ifs
  · exact hModify _ _ fun _ => rfl
  · rfl
  · exact (hModify (w.invoke cb e) (fun ev => { ev with deleted := ev.flag &&& lvOneshot }) fun _ => rfl).trans
      ((hCb.invoke w e).next y hy)

theorem fresh_process (hCb : KeepsLists cb) (w : World κ) (e : Nat) :
    w.base.fresh ≤ (w.process cb nowtime e).base.fresh := by
  unfold World.process
  split_ifs
  · exact le_refl _
  · exact le_refl _
  · exact (hCb.invoke w e).fresh

/-- One turn of the walk: an event whose callback is not invoked is marked, or left as it is. -/
theorem Walked.process (hCb : KeepsLists cb) (w : World κ) (e : Nat) :
    Walked nowtime w [e] (w.process cb nowtime e) := by
  refine ⟨?_, fresh_process hCb w e, fun y hy => next_process hCb w e hy, fun y hy hOff => ?_⟩
  · by_cases hCall : w.base.Callable nowtime e
    · rw [World.process_callable hCall, List.filter_cons_of_pos (by simpa using hCall)]
      exact World.calls_invoke cb w e
    · rw [List.filter_cons_of_neg (by simpa using hCall), World.process]
      split_ifs with hTimeout hDeleted
      · exact (List.append_nil _).symm
      · exact (List.append_nil _).symm
      · exact absurd ⟨not_not.mp hDeleted, hTimeout⟩ hCall
  · have hNe : y ≠ e := fun hSame => hOff (hSame ▸ List.mem_singleton_self y)
    have hSame := (hCb.invoke w e).toSameEvs
    unfold World.process
    split_ifs
    · exact World.callable_modify_other w _ hNe
    · exact Iff.rfl
    · rw [World.callable_modify_other _ _ hNe, Base.Callable, hSame.deleted y hy, ltEvCheckTimeout,
        hSame.endtime y hy]
      rfl

theorem Walked.trans {w'' : World κ} {es es' : List Nat} (h : Walked nowtime w es w') (h' : Walked nowtime w' es' w'')
    (hKnown : ∀ e ∈ es', e < w.base.fresh) (hOff : ∀ e ∈ es', e ∉ es) : Walked nowtime w (es ++ es') w'' where
  invoked := by
    have hSame : (es'.filter fun e => w'.base.Callable nowtime e) = es'.filter fun e => w.base.Callable nowtime e :=
      List.filter_congr fun e he => by simp only [h.others e (hKnown e he) (hOff e he)]
    rw [h'.invoked, h.invoked, hSame, List.append_assoc, List.filter_append]
  fresh := h.fresh.trans h'.fresh
  next y hy := (h'.next y (hy.trans_le h.fresh)).trans (h.next y hy)
  others y hy hMem := by
    rw [List.mem_append, not_or] at hMem
    exact (h'.others y (hy.trans_le h.fresh) hMem.2).trans (h.others y hy hMem.1)

theorem turn_walk (cb : Callback κ) (nowtime : LtTime) (w : World κ) (e : Nat) :
    turn cb nowtime ⟨w, .walk (some e), []⟩ =
      .again ⟨w.process cb nowtime e, .walk ((w.process cb nowtime e).base.next e), []⟩ := by
  rw [turn]
  rfl

/-- The walk over events linked one behind the other. -/
theorem reaches_walk (hCb : KeepsLists cb) (es : List Nat) (cur last : Option Nat) (w : World κ)
    (hLinked : Linked w.base.next cur es last) (hKnown : ∀ e ∈ es, e < w.base.fresh) (hDistinct : es.Nodup) :
    ∃ w', Loop.Reaches (turn cb nowtime) ⟨w, .walk cur, []⟩ ⟨w', .walk last, []⟩ ∧ Walked nowtime w es w' := by
  induction es generalizing cur w with
  | nil =>
      cases hLinked
      exact ⟨w, .refl _, by simp, le_refl _, fun _ _ => rfl, fun _ _ _ => Iff.rfl⟩
  | cons e es ih =>
      rw [List.forall_mem_cons] at hKnown
      rw [List.nodup_cons] at hDistinct
      cases hLinked with
      | cons hRest =>
          have hStep : Walked nowtime w [e] (w.process cb nowtime e) := .process hCb w e
          have hRest' : Linked (w.process cb nowtime e).base.next ((w.process cb nowtime e).base.next e) es last := by
            rw [hStep.next e hKnown.1]
            exact hRest.congr fun y hy => hStep.next y (hKnown.2 y hy)
          obtain ⟨w', hRun, hWalked⟩ := ih _ _ hRest' (fun y hy => (hKnown.2 y hy).trans_le hStep.fresh) hDistinct.2
          refine ⟨w', .head (turn_walk cb nowtime w e) hRun, hStep.trans hWalked hKnown.2 fun y hy hMem => ?_⟩
          exact hDistinct.1 (List.mem_singleton.mp hMem ▸ hy)

/-- A walk that ends has come along links to NULL. -/
theorem linked_of_returns (hCb : KeepsLists cb) {k : Nat} {cur : Option Nat} {w w' : World κ}
    (hFresh : k ≤ w.base.fresh) (hClosed : ∀ e z, e < k → w.base.next e = some z → z < k)
    (hCur : ∀ e, cur = some e → e < k) (h : Loop.Returns (turn cb nowtime) ⟨w, .walk cur, []⟩ w') :
    ∃ es, Linked w.base.next cur es none ∧ ∀ e ∈ es, e < k := by
  obtain ⟨n, hn⟩ := h
  induction n generalizing w cur with
  | zero => cases hn
  | succ n ih =>
      cases cur with
      | none => exact ⟨[], .nil none, List.forall_mem_nil _⟩
      | some e =>
          rw [Loop.iterate, turn_walk] at hn
          have he := hCur e rfl
          have hNext : ∀ y, y < k → (w.process cb nowtime e).base.next y = w.base.next y :=
            fun y hy => next_process hCb w e (hy.trans_le hFresh)
          obtain ⟨es, hLinked, hKnown⟩ := ih (hFresh.trans (fresh_process hCb w e))
            (fun y z hy hz => hClosed y z hy ((hNext y hy).symm.trans hz))
            (fun z hz => hClosed e z he ((hNext e he).symm.trans hz)) hn
          refine ⟨e :: es, .cons ?_, List.forall_mem_cons.mpr ⟨he, hKnown⟩⟩
          rw [← hNext e he]
          exact hLinked.congr fun y hy => (hNext y (hKnown y hy)).symm

/-- The batch up to its first deferred event, and the rest. -/
theorem split_batch (b : Base) (batch : List EpollEvent) :
    (∀ x ∈ batch, ¬ b.Deferred x) ∨
      ∃ pre x post, batch = pre ++ x :: post ∧ (∀ y ∈ pre, ¬ b.Deferred y) ∧ b.Deferred x := by
  induction batch with
  | nil => exact Or.inl fun x hx => nomatch hx
  | cons x xs ih =>
      by_cases hx : b.Deferred x
      · exact Or.inr ⟨[], x, xs, rfl, fun _ hMem => absurd hMem List.not_mem_nil, hx⟩
      · rcases ih with hNone | ⟨pre, y, post, rfl, hPre, hy⟩
        · exact Or.inl (List.forall_mem_cons.mpr ⟨hx, hNone⟩)
        · exact Or.inr ⟨x :: pre, y, post, rfl, List.forall_mem_cons.mpr ⟨hx, hPre⟩, hy⟩

def readyEvents (batch : List EpollEvent) : List Nat := (batch.filter fun x => x.Ready).map EpollEvent.ptr

/-- The iteration ends, and it invokes the callbacks of exactly the ready events, once each. -/
def Dispatches (cb : Callback κ) (nowtime : LtTime) (b : Base) (m : κ) (batch : List EpollEvent) : Prop :=
  ∃ w', Loop.Returns (turn cb nowtime) ⟨⟨b, m, []⟩, .first, batch⟩ w' ∧
    (calls w'.trace).Perm (readyEvents batch)

/-- Behind the first deferred event all events are ready, the `endtime` of every deferred
event lies before `nowtime`, and the link that an earlier batch has left in the last one leads
to NULL, over events whose `endtime` does not lie before `nowtime`. -/
def Base.Orderly (b : Base) (nowtime : LtTime) (batch : List EpollEvent) : Prop :=
  ∀ pre x post, batch = pre ++ x :: post → (∀ y ∈ pre, ¬ b.Deferred y) → b.Deferred x →
    (∀ y ∈ post, y.Ready) ∧ (∀ e ∈ x.ptr :: b.deferred post, ¬ ltEvCheckTimeout (b.ev e) nowtime) ∧
      ∃ es, Linked b.next (b.next ((b.deferred post).getLastD x.ptr)) es none ∧
        ∀ e ∈ es, ltEvCheckTimeout (b.ev e) nowtime

/-- What an iteration starts with: an empty list, links to registered events
only, a batch of distinct events, and no event deleted. -/
structure Startable (b : Base) (batch : List EpollEvent) : Prop where
  head : b.head = none
  known : ∀ e z, e < b.fresh → b.next e = some z → z < b.fresh
  registered : ∀ x ∈ batch, x.ptr < b.fresh
  distinct : (batch.map EpollEvent.ptr).Nodup
  undeleted : ∀ e, e < b.fresh → (b.ev e).deleted = 0

variable {b : Base} {m : κ} {batch pre : List EpollEvent}

theorem Base.SameEvs.callable_iff {b b' : Base} (h : b.SameEvs b') {y : Nat} (hy : y < b.fresh)
    (hDeleted : (b.ev y).deleted = 0) : b'.Callable nowtime y ↔ ¬ ltEvCheckTimeout (b.ev y) nowtime := by
  rw [Base.Callable, h.deleted y hy, ltEvCheckTimeout, h.endtime y hy]
  exact and_iff_right hDeleted

/-- What the walk starts with: the deferred events in a row, in front of what the last one was linked to. -/
structure Lined (b : Base) (pre : List EpollEvent) (x : EpollEvent) (post : List EpollEvent) (w : World κ) :
    Prop where
  invoked : calls w.trace = readyEvents pre ++ b.direct post
  same : b.SameEvs w.base
  row : Linked w.base.next (some x.ptr) (x.ptr :: b.deferred post) (b.next ((b.deferred post).getLastD x.ptr))
  others : ∀ y, y < b.fresh → y ∉ x.ptr :: b.deferred post → w.base.next y = b.next y

/-- The deferred events are registered and distinct. -/
theorem Startable.row (h : Startable b (pre ++ x :: post)) :
    (∀ e ∈ x.ptr :: b.deferred post, e < b.fresh) ∧ (x.ptr :: b.deferred post).Nodup := by
  have hDistinct := h.distinct
  rw [List.map_append, List.nodup_append] at hDistinct
  refine ⟨List.forall_mem_cons.mpr ⟨h.registered x (by simp), fun e he => ?_⟩, ?_⟩
  · obtain ⟨y, hy, rfl⟩ := List.mem_map.mp (mem_map_of_deferred he)
    exact h.registered y (by simp [hy])
  · exact hDistinct.2.1.sublist ((List.filter_sublist.map _).cons_cons _)

theorem Startable.lined (h : Startable b (pre ++ x :: post)) (hCb : KeepsLists cb)
    (hPre : ∀ y ∈ pre, ¬ b.Deferred y) (hx : b.Deferred x) :
    ∃ w, Loop.Reaches (turn cb nowtime) ⟨⟨b, m, []⟩, .first, pre ++ x :: post⟩ ⟨w, .walk (some x.ptr), []⟩ ∧
      Lined b pre x post w := by
  have hKnown := h.registered
  have hDistinct := h.distinct
  rw [List.forall_mem_append, List.forall_mem_cons] at hKnown
  rw [List.map_append, List.nodup_append] at hDistinct
  obtain ⟨hKnownPre, hKnownX, hKnownPost⟩ := hKnown
  -- the first loop up to the first deferred event
  obtain ⟨w₁, hFirst, hSame, hCalls⟩ := @reaches_first κ cb nowtime hCb pre (x :: post) ⟨b, m, []⟩ hKnownPre hPre
  have hx₁ := (hSame.deferred hKnownX).mpr hx
  -- the second loop
  obtain ⟨w₂, hSecond, hQueued⟩ := @reaches_second κ cb nowtime hCb post x.ptr
    (w₁.setList (some x.ptr) (some x.ptr)) (hKnownX.trans_le hSame.fresh)
    (fun y hy => (hKnownPost y hy).trans_le hSame.fresh) hDistinct.2.1
  have hEvs : b.SameEvs (w₁.setList (some x.ptr) (some x.ptr)).base :=
    ⟨hSame.fresh, hSame.flag, hSame.deleted, hSame.endtime⟩
  obtain ⟨hEvs', hCalls', hOthers, hLinked⟩ := hQueued
  rw [hEvs.direct_eq hKnownPost] at hCalls'
  rw [hEvs.deferred_eq hKnownPost] at hLinked hOthers
  rw [show (w₁.setList (some x.ptr) (some x.ptr)).base.next = w₁.base.next from rfl] at hLinked hOthers
  refine ⟨w₂, hFirst.trans (.head ?_ hSecond), ?_, hEvs.trans hEvs', ?_, fun y hy hOff => ?_⟩
  · rw [turn, if_pos hx.1, if_pos hx₁.2]
  · rw [hCalls']
    exact congrArg (· ++ b.direct post) hCalls
  · have hLast : w₁.base.next ((b.deferred post).getLastD x.ptr) = b.next ((b.deferred post).getLastD x.ptr) :=
      hSame.next _ (h.row.1 _ List.getLastD_mem_cons)
    rwa [hLast] at hLinked
  · exact (hOthers y (hy.trans_le hSame.fresh) hOff).trans (hSame.next y hy)

theorem Base.deferred_append_direct (b : Base) (xs : List EpollEvent) :
    (b.direct xs ++ b.deferred xs).Perm (xs.map EpollEvent.ptr) := by
  rw [Base.direct, Base.deferred, ← List.map_append]
  refine List.Perm.map _ (List.perm_append_comm.trans ?_)
  simpa using List.filter_append_perm (fun x => decide (b.Deferred x)) xs

theorem readyEvents_split (pre post : List EpollEvent) {x : EpollEvent} (hx : x.Ready) :
    readyEvents (pre ++ x :: post) = readyEvents pre ++ x.ptr :: readyEvents post := by
  simp [readyEvents, List.filter_append, hx]

/-- A deferred event is among the ready ones, and the two loops have not invoked its callback. -/
theorem Startable.row_waits (h : Startable b (pre ++ x :: post)) (hx : x.Ready) {e : Nat}
    (he : e ∈ x.ptr :: b.deferred post) :
    e ∈ readyEvents (pre ++ x :: post) ∧ e ∉ readyEvents pre ++ b.direct post := by
  have hDistinct := h.distinct
  rw [List.map_append, List.nodup_append, List.map_cons] at hDistinct
  obtain ⟨-, hBehind, hApart⟩ := hDistinct
  have hMem : e ∈ x.ptr :: post.map EpollEvent.ptr :=
    (List.mem_cons.mp he).elim (fun hHere => hHere ▸ List.mem_cons_self)
      fun hLater => List.mem_cons_of_mem _ (mem_map_of_deferred hLater)
  have hRest : (x.ptr :: (b.direct post ++ b.deferred post)).Nodup :=
    ((b.deferred_append_direct post).cons x.ptr).nodup_iff.mpr hBehind
  constructor
  · rw [readyEvents_split _ _ hx, List.mem_append]
    refine Or.inr ((List.mem_cons.mp he).elim (fun hHere => hHere ▸ List.mem_cons_self) fun hLater => ?_)
    obtain ⟨y, hy, rfl⟩ := List.mem_map.mp hLater
    obtain ⟨hPost, hDeferred⟩ := List.mem_filter.mp hy
    refine List.mem_cons_of_mem _ (List.mem_map_of_mem (List.mem_filter.mpr ⟨hPost, ?_⟩))
    exact decide_eq_true (of_decide_eq_true hDeferred).1
  · rw [List.mem_append]
    rintro (hPre | hDirect)
    · obtain ⟨y, hy, rfl⟩ := List.mem_map.mp hPre
      exact hApart _ (List.mem_map_of_mem (List.mem_of_mem_filter hy)) _ hMem rfl
    · rw [List.nodup_cons, List.nodup_append, List.mem_append, not_or] at hRest
      rcases List.mem_cons.mp he with rfl | hLater
      · exact hRest.1.1 hDirect
      · exact hRest.2.2.2 _ hDirect _ hLater rfl

/-- The callbacks invoked are the ready ones exactly if all events behind the first deferred
one are ready, and the walk invokes the callbacks of the deferred ones and no others. -/
theorem Startable.perm_iff (h : Startable b (pre ++ x :: post)) (hx : x.Ready) (called : Nat → Prop)
    [DecidablePred called] (rest : List Nat) :
    (readyEvents pre ++ b.direct post ++ (x.ptr :: b.deferred post ++ rest).filter fun e => called e).Perm
        (readyEvents (pre ++ x :: post)) ↔
      (∀ y ∈ post, y.Ready) ∧ (∀ e ∈ x.ptr :: b.deferred post, called e) ∧ ∀ e ∈ rest, ¬ called e := by
  have hLeft : (readyEvents pre ++ b.direct post ++ x.ptr :: b.deferred post).Perm
      (readyEvents pre ++ x.ptr :: post.map EpollEvent.ptr) := by
    rw [List.append_assoc]
    exact (List.perm_middle.trans ((b.deferred_append_direct post).cons _)).append_left _
  rw [List.filter_append]
  constructor
  · intro hPerm
    have hRow : ∀ e ∈ x.ptr :: b.deferred post, called e := by
      intro e he
      obtain ⟨hReady, hOff⟩ := h.row_waits hx he
      have hCalled := (List.mem_append.mp (hPerm.mem_iff.mpr hReady)).resolve_left hOff
      rw [← List.filter_append] at hCalled
      simpa using (List.mem_filter.mp hCalled).2
    rw [List.filter_eq_self.mpr fun e he => by simpa using hRow e he] at hPerm
    have hLength := hPerm.length_eq
    have hCount := hLeft.length_eq
    have hFilter := List.length_filter_le (fun y : EpollEvent => decide y.Ready) post
    rw [readyEvents_split _ _ hx] at hLength
    simp only [List.length_append, List.length_cons, List.length_map, readyEvents] at hLength hCount
    refine ⟨?_, hRow, ?_⟩
    · simpa using List.length_filter_eq_length_iff.mp (by omega : (post.filter fun y => y.Ready).length = post.length)
    · simpa using List.eq_nil_of_length_eq_zero (by omega : (rest.filter fun e => called e).length = 0)
  · rintro ⟨hReady, hRow, hRest⟩
    have hCalled := List.filter_eq_self.mpr fun e he => decide_eq_true (hRow e he)
    have hPassed : (rest.filter fun e => called e) = [] := by
      simpa using hRest
    rw [hCalled, hPassed, List.append_nil, readyEvents_split _ _ hx]
    refine hLeft.trans (.of_eq ?_)
    rw [readyEvents.eq_1 post, List.filter_eq_self.mpr fun y hy => by simpa using hReady y hy]

/-- The first deferred event is found in one way. -/
theorem orderly_iff (hPre : ∀ y ∈ pre, ¬ b.Deferred y) (hx : b.Deferred x) :
    b.Orderly nowtime (pre ++ x :: post) ↔
      (∀ y ∈ post, y.Ready) ∧ (∀ e ∈ x.ptr :: b.deferred post, ¬ ltEvCheckTimeout (b.ev e) nowtime) ∧
        ∃ es, Linked b.next (b.next ((b.deferred post).getLastD x.ptr)) es none ∧
          ∀ e ∈ es, ltEvCheckTimeout (b.ev e) nowtime := by
  refine ⟨fun h => h pre x post rfl hPre hx, fun h pre' x' post' hSplit hPre' hx' => ?_⟩
  rcases List.append_eq_append_iff.mp hSplit with ⟨mid, rfl, hMid⟩ | ⟨mid, rfl, hMid⟩
  · cases mid with
    | nil =>
        cases hMid
        exact h
    | cons y mid =>
        cases hMid
        exact absurd hx (hPre' x (by simp))
  · cases mid with
    | nil =>
        cases hMid
        exact h
    | cons y mid =>
        cases hMid
        exact absurd hx' (hPre x' (by simp))

/-- The walk from a row along the links behind it, to NULL. -/
theorem Lined.walk (h : Startable b (pre ++ x :: post)) (hCb : KeepsLists cb) {w : World κ}
    (hLined : Lined b pre x post w) {es : List Nat} (hWhole : Linked w.base.next (some x.ptr) es none)
    (hKnown : ∀ e ∈ es, e < b.fresh) :
    ∃ w', Loop.Returns (turn cb nowtime) ⟨w, .walk (some x.ptr), []⟩ w' ∧
      calls w'.trace =
        readyEvents pre ++ b.direct post ++ es.filter fun e => ¬ ltEvCheckTimeout (b.ev e) nowtime := by
  obtain ⟨w', hRun, hWalked⟩ := reaches_walk hCb es _ none w hWhole
    (fun e he => (hKnown e he).trans_le hLined.same.fresh) hWhole.nodup
  refine ⟨w'.setList none none, hRun.returns (Loop.returns_of_exit (by rw [turn])), ?_⟩
  refine hWalked.invoked.trans ?_
  rw [hLined.invoked]
  refine congrArg _ (List.filter_congr fun e he => ?_)
  simp only [hLined.same.callable_iff (hKnown e he) (h.undeleted e (hKnown e he))]

/-- The walk dispatches what is left to it exactly if the batch is orderly: everything
behind the first deferred entry is ready, the `endtime` of every deferred event lies
before `nowtime`, and the links that lead on from the last one pass only events whose
`endtime` does not. -/
theorem Lined.dispatches_iff (h : Startable b (pre ++ x :: post)) (hCb : KeepsLists cb)
    {w : World κ} (hLined : Lined b pre x post w) (hx : x.Ready) :
    (∃ w', Loop.Returns (turn cb nowtime) ⟨w, .walk (some x.ptr), []⟩ w' ∧
        (calls w'.trace).Perm (readyEvents (pre ++ x :: post))) ↔
      (∀ y ∈ post, y.Ready) ∧ (∀ e ∈ x.ptr :: b.deferred post, ¬ ltEvCheckTimeout (b.ev e) nowtime) ∧
        ∃ es, Linked b.next (b.next ((b.deferred post).getLastD x.ptr)) es none ∧
          ∀ e ∈ es, ltEvCheckTimeout (b.ev e) nowtime := by
  obtain ⟨hRow, hNodup⟩ := h.row
  constructor
  · rintro ⟨w', hRun, hPerm⟩
    have hClosed : ∀ e z, e < b.fresh → w.base.next e = some z → z < b.fresh := by
      intro e z he hz
      by_cases hMem : e ∈ x.ptr :: b.deferred post
      · rcases hLined.row.next_mem hMem with hEnd | ⟨y, hy, hNext⟩
        · exact h.known _ z (hRow _ List.getLastD_mem_cons) (hEnd.symm.trans hz)
        · exact Option.some.inj (hNext.symm.trans hz) ▸ hRow y hy
      · exact h.known e z he ((hLined.others e he hMem).symm.trans hz)
    obtain ⟨whole, hWhole, hKnown⟩ := linked_of_returns hCb hLined.same.fresh hClosed
      (fun e he => Option.some.inj he ▸ hRow _ List.mem_cons_self) hRun
    obtain ⟨rest, rfl, hRest⟩ := hLined.row.split hWhole
    obtain ⟨w'', hRun', hCalls⟩ := hLined.walk h hCb hWhole hKnown
    rw [hRun.unique hRun', hCalls, h.perm_iff hx] at hPerm
    obtain ⟨hReady, hCalled, hPassed⟩ := hPerm
    refine ⟨hReady, hCalled, rest, hRest.congr fun e he => ?_, fun e he => not_not.mp (hPassed e he)⟩
    exact (hLined.others e (hKnown e (List.mem_append_right _ he)) fun hMem =>
      List.disjoint_of_nodup_append hWhole.nodup hMem he).symm
  · rintro ⟨hReady, hCalled, rest, hRest, hPassed⟩
    have hKnown : ∀ e ∈ rest, e < b.fresh :=
      hRest.forall_mem h.known fun e he => h.known _ e (hRow _ List.getLastD_mem_cons) he
    have hRest' : Linked w.base.next (b.next ((b.deferred post).getLastD x.ptr)) rest none :=
      hRest.congr fun e he => hLined.others e (hKnown e he) fun hMem => hCalled e hMem (hPassed e he)
    obtain ⟨w', hRun, hCalls⟩ := hLined.walk h hCb (hLined.row.append hRest') fun e he =>
      (List.mem_append.mp he).elim (hRow e) (hKnown e)
    refine ⟨w', hRun, ?_⟩
    rw [hCalls, h.perm_iff hx]
    exact ⟨hReady, hCalled, fun e he => not_not.mpr (hPassed e he)⟩

/-- An iteration dispatches its ready events exactly if its batch is orderly. -/
theorem Startable.dispatches_iff (h : Startable b batch) (hCb : KeepsLists cb) (m : κ) :
    Dispatches cb nowtime b m batch ↔ b.Orderly nowtime batch := by
  rcases split_batch b batch with hNone | ⟨pre, x, post, rfl, hPre, hx⟩
  · obtain ⟨w, hRun, hSame, hCalls⟩ := @reaches_first κ cb nowtime hCb batch [] ⟨b, m, []⟩ h.registered hNone
    rw [List.append_nil] at hRun
    have hHead : w.base.head = none := hSame.head.trans h.head
    have hReturns : Loop.Returns (turn cb nowtime) ⟨⟨b, m, []⟩, .first, batch⟩
        ((w.setList none none).setList none none) := by
      refine hRun.returns ((Loop.returns_again_iff (by rw [turn, hHead])).mpr (Loop.returns_of_exit ?_))
      rw [turn]
    refine ⟨fun _ pre x post hBatch _ hx => ?_, fun _ => ⟨_, hReturns, ?_⟩⟩
    · exact absurd hx (hNone x (by simp [hBatch]))
    · exact .of_eq hCalls
  · obtain ⟨w, hRun, hLined⟩ := h.lined (m := m) hCb hPre hx
    rw [orderly_iff hPre hx, ← hLined.dispatches_iff h hCb hx.1]
    constructor
    · rintro ⟨w', hReturns, hPerm⟩
      exact ⟨w', hRun.of_returns hReturns, hPerm⟩
    · rintro ⟨w', hReturns, hPerm⟩
      exact ⟨w', hRun.returns hReturns, hPerm⟩

end Iteration

section Runs

/-- The links of the registered events lead to registered events. -/
def Base.Closed (b : Base) : Prop := ∀ e z, e < b.fresh → b.next e = some z → z < b.fresh

theorem Base.Closed.io {b : Base} (h : b.Closed) (c : IoCall) : (b.io c).Closed := by
  intro e z he hNext
  obtain ⟨hOld, hLink⟩ := Base.link_io he hNext
  exact (h e z hOld hLink).trans_le (b.fresh_le_io c)

theorem Base.Closed.foldl_io {b : Base} (h : b.Closed) (cs : List IoCall) :
    (cs.foldl Base.io b).Closed ∧ b.fresh ≤ (cs.foldl Base.io b).fresh := by
  induction cs generalizing b with
  | nil => exact ⟨h, le_refl _⟩
  | cons c cs ih =>
      obtain ⟨hClosed, hFresh⟩ := ih (h.io c)
      exact ⟨hClosed, (b.fresh_le_io c).trans hFresh⟩

theorem Base.Closed.modify {b : Base} (h : b.Closed) (e : Nat) {g : EventT → EventT}
    (hg : ∀ z, (g (b.ev e)).nextActiveEv = some z → (b.ev e).nextActiveEv = some z ∨ z < b.fresh) :
    (b.modify e g).Closed := by
  intro y z hy hNext
  rw [Base.next, Base.ev_modify] at hNext
  split_ifs at hNext with hHere
  · subst hHere
    exact (hg z hNext).elim (h y z hy) id
  · exact h y z hy hNext

variable {cb : Callback κ} {nowtime : LtTime}

theorem Base.Closed.invoke {w : World κ} (h : w.base.Closed) (cb : Callback κ) (e : Nat) :
    (w.invoke cb e).base.Closed ∧ w.base.fresh ≤ (w.invoke cb e).base.fresh := by
  rw [World.base_invoke]
  exact h.foldl_io _

theorem World.head_invoke (w : World κ) (cb : Callback κ) (e : Nat) : (w.invoke cb e).base.head = w.base.head := by
  rw [World.base_invoke]
  exact List.foldlRecOn (motive := fun b : Base => b.head = w.base.head) _ _ rfl fun b hb c _ => by
    rw [Base.head_io, hb]

/-- The links, the batch and the list stay among the registered events. -/
structure Sane (c : Config κ) : Prop where
  closed : c.world.base.Closed
  batch : ∀ x ∈ c.batch, x.ptr < c.world.base.fresh
  head : ∀ e, c.world.base.head = some e → e < c.world.base.fresh
  prev : ∀ prev, c.stage = .second prev → prev < c.world.base.fresh
  cur : ∀ e, c.stage = .walk (some e) → e < c.world.base.fresh

structure Base.Settled (b : Base) : Prop where
  head : b.head = none
  closed : b.Closed

theorem Base.Settled.sane {w : World κ} (h : w.base.Settled) {batch : List EpollEvent}
    (hBatch : ∀ x ∈ batch, x.ptr < w.base.fresh) : Sane ⟨w, .first, batch⟩ :=
  ⟨h.closed, hBatch, fun e he => by simp [h.head] at he, fun _ hNot => (nomatch hNot), fun _ hNot => (nomatch hNot)⟩

theorem Base.Closed.process {w : World κ} (h : w.base.Closed) (cb : Callback κ) (nowtime : LtTime) (e : Nat) :
    (w.process cb nowtime e).base.Closed ∧ w.base.fresh ≤ (w.process cb nowtime e).base.fresh ∧
      (w.process cb nowtime e).base.head = w.base.head := by
  obtain ⟨hCalled, hFresh⟩ := h.invoke cb e
  unfold World.process
  split_ifs
  · exact ⟨h.modify e fun z hz => Or.inl hz, le_refl _, rfl⟩
  · exact ⟨h, le_refl _, rfl⟩
  · exact ⟨hCalled.modify e fun z hz => Or.inl hz, hFresh, w.head_invoke cb e⟩

/-- A direct call, in one of the first two loops. -/
theorem Sane.invoke {w : World κ} {stage : Stage} {x : EpollEvent} {xs : List EpollEvent}
    (h : Sane ⟨w, stage, x :: xs⟩) (cb : Callback κ) : Sane ⟨w.invoke cb x.ptr, stage, xs⟩ := by
  obtain ⟨hClosed, hBatch, hHead, hPrev, hCur⟩ := h
  obtain ⟨hCalled, hFresh⟩ := hClosed.invoke cb x.ptr
  refine ⟨hCalled, fun y hy => ?_, fun e he => ?_, fun prev hp => ?_, fun e he => ?_⟩
  · exact (hBatch y (List.mem_cons_of_mem _ hy)).trans_le hFresh
  · exact (hHead e ((w.head_invoke cb x.ptr).symm.trans he)).trans_le hFresh
  · exact (hPrev prev hp).trans_le hFresh
  · exact (hCur e he).trans_le hFresh

theorem Sane.step {c d : Config κ} (h : Sane c) (hStep : TurnStep cb nowtime c d) : Sane d := by
  cases hStep with
  | ended w =>
      exact ⟨h.closed, h.batch, h.head, fun _ hNot => (nomatch hNot), fun e he => h.head e (Stage.walk.inj he)⟩
  | defer w x xs =>
      have hHere := h.batch x List.mem_cons_self
      refine ⟨h.closed, fun y hy => h.batch y (List.mem_cons_of_mem _ hy), fun e he => ?_, fun prev hp => ?_,
        fun _ hNot => (nomatch hNot)⟩
      · exact Option.some.inj he ▸ hHere
      · exact Stage.second.inj hp ▸ hHere
  | direct w x xs => exact h.invoke cb
  | skip w x xs => exact ⟨h.closed, fun y hy => h.batch y (List.mem_cons_of_mem _ hy), h.head, h.prev, h.cur⟩
  | linked w prev =>
      exact ⟨h.closed, h.batch, h.head, fun _ hNot => (nomatch hNot), fun e he => h.head e (Stage.walk.inj he)⟩
  | link w prev x xs =>
      have hHere := h.batch x List.mem_cons_self
      refine ⟨h.closed.modify prev fun z hz => Or.inr (Option.some.inj hz ▸ hHere),
        fun y hy => h.batch y (List.mem_cons_of_mem _ hy), h.head, fun prev hp => ?_, fun _ hNot => (nomatch hNot)⟩
      exact Stage.second.inj hp ▸ hHere
  | late w prev x xs => exact h.invoke cb
  | process w e xs =>
      obtain ⟨hClosed, hFresh, hHead⟩ := Base.Closed.process h.closed cb nowtime e
      refine ⟨hClosed, fun x hx => (h.batch x hx).trans_le hFresh, fun y hy => ?_, fun _ hNot => (nomatch hNot),
        fun z hz => ?_⟩
      · exact (h.head y (hHead.symm.trans hy)).trans_le hFresh
      · exact hClosed e z ((h.cur e rfl).trans_le hFresh) (Stage.walk.inj hz)

theorem Sane.settled {c : Config κ} {w : World κ} (h : Sane c) (hTurn : turn cb nowtime c = .exit w) :
    w.base.Settled := by
  rw [(turn_exit hTurn).1]
  exact ⟨rfl, h.closed⟩

/-- One iteration: what epoll reports, when, and the flags the events have by then. -/
structure Round where
  batch : List EpollEvent
  nowtime : LtTime
  flags : Nat → Nat

def Base.setFlags (b : Base) (flags : Nat → Nat) : Base :=
  { b with ev := fun e => { b.ev e with flag := flags e } }

/-- The batch has distinct registered events, and no event is deleted. -/
structure Round.Quiet (r : Round) (b : Base) : Prop where
  registered : ∀ x ∈ r.batch, x.ptr < b.fresh
  distinct : (r.batch.map EpollEvent.ptr).Nodup
  undeleted : ∀ e, e < b.fresh → (b.ev e).deleted = 0

/-- The states between the iterations of the event loop. -/
inductive Iterated (cb : Callback κ) : Base → κ → Prop where
  | start {b : Base} (m : κ) (p : Nat → Nat) (ev : Nat → EventT) (tail : Option Nat)
      (hRun : Run.Reach Base.io Base.Legal (Base.ltBaseInit p ev tail) b) : Iterated cb b m
  | round {b : Base} {m : κ} {w : World κ} (r : Round) (prior : Iterated cb b m) (hQuiet : r.Quiet b)
      (hRun : Loop.Returns (turn cb r.nowtime) ⟨⟨b.setFlags r.flags, m, []⟩, .first, r.batch⟩ w) :
      Iterated cb w.base w.mem

theorem Iterated.settled {b : Base} {m : κ} (h : Iterated cb b m) : b.Settled := by
  induction h with
  | start m p ev tail hRun =>
      refine hRun.all (I := Base.Settled) ⟨rfl, fun e z he => absurd he (Nat.not_lt_zero e)⟩ ?_
      exact fun b c hb _ => ⟨by rw [Base.head_io, hb.head], hb.closed.io c⟩
  | @round b m w r prior hQuiet hRun ih =>
      refine hRun.all (I := Sane) (Q := fun w => w.base.Settled) (fun _ _ hc hTurn => hc.step (turn_again hTurn))
        (fun _ _ hc hTurn => hc.settled hTurn) ?_
      exact Base.Settled.sane ⟨ih.head, ih.closed⟩ hQuiet.registered

/-- In every run of the event loop an iteration dispatches its ready events exactly if
its batch is orderly. Being orderly is a condition on the base before the first event is
processed; a pending timeout is not assumed away. -/
theorem dispatches_iff_orderly (hCb : KeepsLists cb) {b : Base} {m : κ} (hRun : Iterated cb b m) (r : Round)
    (hQuiet : r.Quiet b) :
    Dispatches cb r.nowtime (b.setFlags r.flags) m r.batch ↔
      (b.setFlags r.flags).Orderly r.nowtime r.batch := by
  obtain ⟨hHead, hClosed⟩ := hRun.settled
  exact Startable.dispatches_iff (b := b.setFlags r.flags)
    ⟨hHead, hClosed, hQuiet.registered, hQuiet.distinct, hQuiet.undeleted⟩ hCb m

def twoEvents : Base :=
  ((Base.ltBaseInit (fun _ => 0) (fun _ => {}) none).io (.add lvLag noTimeout ⟨0, 0⟩ true)).io
    (.add 0 noTimeout ⟨0, 0⟩ true)

def idle : Callback Unit := fun _ m _ => (m, [])

theorem keepsLists_idle : KeepsLists idle := fun _ _ b => Base.SameLists.refl b

theorem iterated_twoEvents : Iterated idle twoEvents () :=
  .start () (fun _ => 0) (fun _ => {}) none
    (.next (IoCall.add 0 noTimeout ⟨0, 0⟩ true) (.next (IoCall.add lvLag noTimeout ⟨0, 0⟩ true) .start (Or.inl rfl))
      (Or.inl rfl))

/-- Both events are reported, and `mask` is what is reported of the second one. -/
def bothReported (mask : Nat) : Round where
  batch := [⟨epollin, 0⟩, ⟨mask, 1⟩]
  nowtime := ⟨1, 0⟩
  flags e := if e = 0 then lvLag else 0

theorem quiet_bothReported (mask : Nat) : (bothReported mask).Quiet twoEvents where
  registered x hx := by
    simp only [bothReported, List.mem_cons, List.not_mem_nil, or_false] at hx
    rcases hx with rfl | rfl
    · exact (by decide : 0 < twoEvents.fresh)
    · exact (by decide : 1 < twoEvents.fresh)
  distinct := (by decide : ([0, 1] : List Nat).Nodup)
  undeleted e he := by
    have hTwo : e < 2 := he
    interval_cases e
    · rfl
    · rfl

def epollrdhup : Nat := 0x2000

/-- An event that only hangs up is dispatched if it comes behind a deferred one, also where
no event has a timeout. -/
theorem not_dispatches_rdhup :
    ¬ ∀ (κ : Type) (cb : Callback κ) (b : Base) (m : κ) (r : Round), KeepsLists cb → Iterated cb b m →
      r.Quiet b → (∀ e, e < b.fresh → (b.ev e).endtime = ⟨0, 0⟩) →
      Dispatches cb r.nowtime (b.setFlags r.flags) m r.batch := by
  intro hClaim
  have hQuiet := quiet_bothReported epollrdhup
  have hDispatches := hClaim Unit idle twoEvents () (bothReported epollrdhup) keepsLists_idle iterated_twoEvents
    hQuiet fun e he => by
      have hTwo : e < 2 := he
      interval_cases e
      · rfl
      · rfl
  obtain ⟨hHead, hClosed⟩ := iterated_twoEvents.settled
  have hStart : Startable (twoEvents.setFlags (bothReported epollrdhup).flags) (bothReported epollrdhup).batch :=
    ⟨hHead, hClosed, hQuiet.registered, hQuiet.distinct, hQuiet.undeleted⟩
  have hOrderly := (hStart.dispatches_iff keepsLists_idle ()).mp hDispatches
  have hReady := (hOrderly [] ⟨epollin, 0⟩ [⟨epollrdhup, 1⟩] rfl (by simp) (by decide)).1 ⟨epollrdhup, 1⟩ (by simp)
  exact absurd hReady (by decide)

theorem dispatches_iff_orderly_bothReported :
    Dispatches idle ⟨1, 0⟩ (twoEvents.setFlags (bothReported epollin).flags) () (bothReported epollin).batch := by
  refine (dispatches_iff_orderly keepsLists_idle iterated_twoEvents (bothReported epollin)
    (quiet_bothReported epollin)).mpr ?_
  have hFirst : (twoEvents.setFlags (bothReported epollin).flags).Deferred ⟨epollin, 0⟩ := by decide
  change (twoEvents.setFlags (bothReported epollin).flags).Orderly ⟨1, 0⟩ ([] ++ ⟨epollin, 0⟩ :: [⟨epollin, 1⟩])
  rw [orderly_iff (List.forall_mem_nil _) hFirst]
  exact ⟨by decide, by decide, [], .nil none, List.forall_mem_nil _⟩

end Runs

end Leactor
