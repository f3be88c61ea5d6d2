import Leactor.Library.Arena
import Leactor.Library.Run

/-! The list of deleted events at `base->free_ev_head`. Events and the head are
named by numbers; a read or write through NULL is a fault. `lt_alloc` is taken to hand
out fresh events, which the event pool promises for 64 of them (`Pool.TypedPool.room_iff_le`). -/
namespace Leactor

open Arena

structure EventLinks where
  next : Option Nat
  prev : Option Nat

/-- `base->free_ev_head`, and the events in memory. -/
structure EventList where
  head : Nat
  events : Arena EventLinks

namespace EventList

/-- `lt_base_init`, which leaves `prev` of the head unset. -/
def ltBaseInit (junk : Nat → EventLinks) : EventList :=
  let (head, events) := (⟨[], junk⟩ : Arena EventLinks).alloc
  ⟨head, events.modify head fun ev => { ev with next := none }⟩

def link (l : EventList) (field : EventLinks → Option Nat) (e : Option Nat) : Option (Option Nat) :=
  e.bind fun i => (l.events.get? i).map field

/-- `e->next = value` or `e->prev = value` -/
def assign (l : EventList) (e : Option Nat) (g : EventLinks → EventLinks) : Option EventList :=
  e.bind fun i => (l.events.get? i).map fun _ => { l with events := l.events.modify i g }

def setNext (l : EventList) (e value : Option Nat) : Option EventList :=
  l.assign e fun ev => { ev with next := value }

def setPrev (l : EventList) (e value : Option Nat) : Option EventList :=
  l.assign e fun ev => { ev with prev := value }

def ltNewEvent (l : EventList) : Option (Nat × EventList) := do
  match ← l.link EventLinks.next (some l.head) with
  | some e =>
      let l ← l.setNext (← l.link EventLinks.prev (some e)) (← l.link EventLinks.next (some e))
      let l ← l.setPrev (← l.link EventLinks.next (some e)) (← l.link EventLinks.prev (some e))
      return (e, l)
  | none =>
      let (e, events) := l.events.alloc
      return (e, { l with events := events })

def ltDelEvent (l : EventList) (e : Nat) : Option EventList := do
  match ← l.link EventLinks.next (some l.head) with
  | some f =>
      let l ← l.setPrev (some e) (← l.link EventLinks.prev (some f))
      let l ← l.setNext (some e) (some f)
      let l ← l.setPrev (some f) (some e)
      l.setNext (← l.link EventLinks.prev (some f)) (some e)
  | none =>
      let l ← l.setNext (some l.head) (some e)
      l.setPrev (some e) (some l.head)

end EventList

/-- The list in a run, the events in use and the ones deleted and not reissued. -/
structure EventRun where
  list : EventList
  used : Set Nat
  free : Set Nat

inductive EventCall where
  | new
  | del (e : Nat)

namespace EventRun

def start (junk : Nat → EventLinks) : EventRun := ⟨.ltBaseInit junk, ∅, ∅⟩

def step (w : EventRun) : EventCall → Option EventRun
  | .new => w.list.ltNewEvent.map fun r => ⟨r.2, insert r.1 w.used, w.free \ {r.1}⟩
  | .del e => (w.list.ltDelEvent e).map fun l => ⟨l, w.used \ {e}, insert e w.free⟩

def Legal (w : EventRun) : EventCall → Prop
  | .new => True
  | .del e => e ∈ w.used

/-- The list is empty, and a deleted event has no successor yet. -/
def Fits (w : EventRun) : EventCall → Prop
  | .new => w.list.link EventLinks.next (some w.list.head) = some none
  | .del e =>
      w.list.link EventLinks.next (some w.list.head) = some none ∧
        w.list.link EventLinks.next (some e) = some none

/-- The links back lead over the cells to `p`. -/
def Backs : Nat → List (Nat × EventLinks) → Prop
  | _, [] => True
  | p, (i, ev) :: cells => ev.prev = some p ∧ Backs i cells

/-- The links from the head lead over the free events, each once, and the
links back are their inverse. -/
def Lists (w : EventRun) : Prop :=
  ∃ ev cells, w.list.events.get? w.list.head = some ev ∧
    Path EventLinks.next w.list.events ev.next cells none ∧ (cells.map Prod.fst).Nodup ∧
    (∀ x, x ∈ cells.map Prod.fst ↔ x ∈ w.free) ∧ Backs w.list.head cells

def Spares (w : EventRun) : EventCall → Prop
  | .new => ∀ r, w.list.ltNewEvent = some r → r.1 ∉ w.used
  | .del _ => True

/-- The call comes to its end, does no harm and leaves a sound list. -/
def Serves (w : EventRun) (c : EventCall) : Prop := w.Spares c ∧ ∃ w', w.step c = some w' ∧ w'.Lists

/-- At most one event is free, with links to the head and to nothing else. -/
structure Kept (w : EventRun) : Prop where
  list : ∃ ev, w.list.events.get? w.list.head = some ev ∧
    (ev.next = none ∧ w.free = ∅ ∨
      ∃ e, ev.next = some e ∧ w.list.events.get? e = some ⟨none, some w.list.head⟩ ∧ w.free = {e} ∧ e ≠ w.list.head)
  apart : ∀ x ∈ w.used, x ∉ w.free
  known : ∀ x ∈ w.used, x < w.list.events.fresh ∧ x ≠ w.list.head

open EventList

variable {w w' : EventRun}

theorem link_of_get? {l : EventList} {i : Nat} {ev : EventLinks} (h : l.events.get? i = some ev)
    (field : EventLinks → Option Nat) : l.link field (some i) = some (field ev) := by
  simp [link, h]

theorem assign_of_get? {l : EventList} {i : Nat} {ev : EventLinks} (h : l.events.get? i = some ev)
    (g : EventLinks → EventLinks) : l.assign (some i) g = some { l with events := l.events.modify i g } := by
  simp [assign, h]

theorem kept_start (junk : Nat → EventLinks) : (start junk).Kept where
  list := ⟨{ junk 0 with next := none }, rfl, Or.inl ⟨rfl, rfl⟩⟩
  apart x hx := absurd hx (Set.notMem_empty x)
  known x hx := absurd hx (Set.notMem_empty x)

theorem Kept.lists (h : w.Kept) : w.Lists := by
  obtain ⟨ev, hHead, ⟨hNext, hFree⟩ | ⟨e, hNext, hCell, hFree, -⟩⟩ := h.list
  · refine ⟨ev, [], hHead, ?_, List.nodup_nil, fun x => ?_, trivial⟩
    · rw [hNext]
      exact .nil _
    · rw [hFree]
      simp
  · refine ⟨ev, [(e, ⟨none, some w.list.head⟩)], hHead, ?_, List.nodup_singleton _, fun x => ?_, rfl, trivial⟩
    · rw [hNext]
      exact .cons hCell (.nil _)
    · rw [hFree]
      simp

/-- An event is made from a new block. The list is empty then, and nothing is linked to
the block. -/
theorem Kept.new (h : w.Kept) (hFits : w.Fits .new) :
    w.Spares .new ∧ ∃ w', w.step .new = some w' ∧ w'.Kept := by
  obtain ⟨ev, hHead, hList⟩ := h.list
  rw [Fits, link_of_get? hHead, Option.some.injEq] at hFits
  have hNew : w.list.ltNewEvent = some (w.list.events.fresh, { w.list with events := w.list.events.alloc.2 }) := by
    simp [ltNewEvent, link_of_get? hHead, hFits, alloc]
  have hFree : w.free = ∅ := by
    rcases hList with ⟨-, hNone⟩ | ⟨e, hSome, -⟩
    · exact hNone
    · rw [hFits] at hSome
      cases hSome
  refine ⟨fun r hr => ?_, _, by rw [EventRun.step, hNew]; rfl, ?_, ?_, ?_⟩
  · rw [hNew] at hr
    cases hr
    exact fun hUsed => lt_irrefl _ (h.known _ hUsed).1
  · refine ⟨ev, (get?_alloc (lt_fresh hHead)).trans hHead, Or.inl ⟨hFits, ?_⟩⟩
    simp only [hFree, Set.empty_sdiff]
  · intro x _ hMem
    simp only [hFree, Set.empty_sdiff] at hMem
    exact hMem
  · intro x hx
    have hFresh : w.list.events.alloc.2.fresh = w.list.events.fresh + 1 := fresh_alloc _
    simp only [hFresh]
    rcases hx with rfl | hx
    · exact ⟨Nat.lt_succ_self _, (lt_fresh hHead).ne'⟩
    · exact ⟨Nat.lt_succ_of_lt (h.known x hx).1, (h.known x hx).2⟩

theorem Kept.cell (h : w.Kept) {e : Nat} (hUsed : e ∈ w.used) : ∃ ev, w.list.events.get? e = some ev :=
  Option.ne_none_iff_exists'.mp (mt get?_eq_none_iff.mp (not_le.mpr (h.known e hUsed).1))

/-- The first event is deleted: only its link back and the head are written. -/
theorem ltDelEvent_empty {l : EventList} {e : Nat} {ev c : EventLinks} (hHead : l.events.get? l.head = some ev)
    (hNext : ev.next = none) (hCell : l.events.get? e = some c) (hNe : e ≠ l.head) :
    ∃ l', l.ltDelEvent e = some l' ∧ l'.head = l.head ∧ l'.events.fresh = l.events.fresh ∧
      l'.events.get? l.head = some { ev with next := some e } ∧
      l'.events.get? e = some { c with prev := some l.head } := by
  have hCell' : (l.events.modify l.head fun x => { x with next := some e }).get? e = some c := by
    rw [get?_modify_other _ hNe.symm, hCell]
  refine ⟨⟨l.head, (l.events.modify l.head fun x => { x with next := some e }).modify e
    fun x => { x with prev := some l.head }⟩, ?_, rfl, by simp, ?_, ?_⟩
  · simp only [ltDelEvent, link_of_get? hHead, hNext, Option.bind_eq_bind, Option.bind_some, setNext,
      assign_of_get? hHead, setPrev]
    exact assign_of_get? hCell' _
  · simp only [get?_modify_other _ hNe, get?_modify_same, hHead, Option.map_some]
  · simp only [get?_modify_same, hCell', Option.map_some]

theorem Kept.del (h : w.Kept) {e : Nat} (hUsed : e ∈ w.used) (hFits : w.Fits (.del e)) :
    ∃ w', w.step (.del e) = some w' ∧ w'.Kept := by
  obtain ⟨ev, hHead, hList⟩ := h.list
  obtain ⟨c, hCell⟩ := h.cell hUsed
  obtain ⟨hNone, hNext⟩ := hFits
  rw [link_of_get? hHead, Option.some.injEq] at hNone
  rw [link_of_get? hCell, Option.some.injEq] at hNext
  have hFree : w.free = ∅ := by
    rcases hList with ⟨-, hNone⟩ | ⟨f, hSome, -⟩
    · exact hNone
    · rw [hNone] at hSome
      cases hSome
  have hNe := (h.known e hUsed).2
  obtain ⟨l, hDel, hSame, hFresh, hHead', hCell'⟩ := ltDelEvent_empty hHead hNone hCell hNe
  refine ⟨⟨l, w.used \ {e}, insert e w.free⟩, by rw [EventRun.step, hDel]; rfl, ?_, ?_, ?_⟩
  · refine ⟨_, by rw [hSame]; exact hHead', Or.inr ⟨e, rfl, ?_, ?_, ?_⟩⟩
    · rw [hCell', hNext, hSame]
    · simp only [hFree, insert_empty_eq]
    · rwa [hSame]
  · rintro x hx (rfl | hMem)
    · exact hx.2 rfl
    · exact h.apart x hx.1 hMem
  · intro x hx
    simp only [hFresh, hSame]
    exact h.known x hx.1

/-- From a list of one event nothing can be taken: the event has no successor. -/
theorem ltNewEvent_one {l : EventList} {e : Nat} {ev : EventLinks} (hHead : l.events.get? l.head = some ev)
    (hNext : ev.next = some e) (hCell : l.events.get? e = some ⟨none, some l.head⟩) (hNe : e ≠ l.head) :
    l.ltNewEvent = none := by
  have hCell' : (l.events.modify l.head fun x => { x with next := none }).get? e = some ⟨none, some l.head⟩ := by
    rw [get?_modify_other _ hNe.symm, hCell]
  have hLinks : ∀ field, (⟨l.head, l.events.modify l.head fun x => { x with next := none }⟩ : EventList).link field
      (some e) = some (field ⟨none, some l.head⟩) := link_of_get? hCell'
  have hNext' : l.setNext (some l.head) none = some ⟨l.head, l.events.modify l.head fun x => { x with next := none }⟩ :=
    assign_of_get? hHead _
  have hNull : ∀ (l : EventList) value, l.setPrev none value = none := fun _ _ => rfl
  simp only [ltNewEvent, link_of_get? hHead, hNext, Option.bind_eq_bind, Option.bind_some, link_of_get? hCell,
    hNext', hLinks, hNull, Option.bind_none]

/-- Before a list of one event another one is not linked: it is its own successor. -/
theorem ltDelEvent_one {l : EventList} {e f : Nat} {ev c : EventLinks} (hHead : l.events.get? l.head = some ev)
    (hNext : ev.next = some f) (hCellF : l.events.get? f = some ⟨none, some l.head⟩)
    (hCell : l.events.get? e = some c) (hNe : e ≠ f) (hApart : f ≠ l.head) (hOff : e ≠ l.head) :
    ∃ l', l.ltDelEvent e = some l' ∧ l'.head = l.head ∧ l'.events.get? l.head = some ev ∧
      l'.events.get? f = some ⟨none, some e⟩ := by
  let a := l.events.modify e fun x => { x with prev := some l.head }
  let b := a.modify e fun x => { x with next := some f }
  let d := b.modify f fun x => { x with prev := some e }
  have hA : a.get? e = some { c with prev := some l.head } := by
    simp only [a, get?_modify_same, hCell, Option.map_some]
  have hB : b.get? f = some ⟨none, some l.head⟩ := by
    simp only [b, a, get?_modify_other _ hNe, hCellF]
  have hD : d.get? f = some ⟨none, some e⟩ := by
    simp only [d, get?_modify_same, hB, Option.map_some]
  have hE : d.get? e = some ⟨some f, some l.head⟩ := by
    simp only [d, b, get?_modify_other _ hNe.symm, get?_modify_same, hA, Option.map_some]
  refine ⟨⟨l.head, d.modify e fun x => { x with next := some e }⟩, ?_, rfl, ?_, ?_⟩
  · have hFirst : l.setPrev (some e) (some l.head) = some ⟨l.head, a⟩ := assign_of_get? hCell _
    have hSecond : (⟨l.head, a⟩ : EventList).setNext (some e) (some f) = some ⟨l.head, b⟩ :=
      assign_of_get? (show (⟨l.head, a⟩ : EventList).events.get? e = _ from hA) _
    have hThird : (⟨l.head, b⟩ : EventList).setPrev (some f) (some e) = some ⟨l.head, d⟩ :=
      assign_of_get? (show (⟨l.head, b⟩ : EventList).events.get? f = _ from hB) _
    have hBack : (⟨l.head, d⟩ : EventList).link EventLinks.prev (some f) = some (some e) :=
      link_of_get? (show (⟨l.head, d⟩ : EventList).events.get? f = _ from hD) _
    simp only [ltDelEvent, link_of_get? hHead, hNext, Option.bind_eq_bind, Option.bind_some, link_of_get? hCellF,
      hFirst, hSecond, hThird, hBack]
    exact assign_of_get? (show (⟨l.head, d⟩ : EventList).events.get? e = _ from hE) _
  · simp only [d, b, a, get?_modify_other _ hOff, get?_modify_other _ hApart, hHead]
  · rw [get?_modify_other _ hNe, hD]

theorem Kept.not_new (h : w.Kept) (hNot : ¬ w.Fits .new) : w.step .new = none := by
  obtain ⟨ev, hHead, ⟨hNext, -⟩ | ⟨e, hNext, hCell, -, hNe⟩⟩ := h.list
  · exact absurd ((link_of_get? hHead _).trans (congrArg some hNext)) hNot
  · rw [EventRun.step, ltNewEvent_one hHead hNext hCell hNe]
    rfl

/-- A deleted event that is not alone, or that has a successor, spoils the list. -/
theorem Kept.not_del (h : w.Kept) {e : Nat} (hUsed : e ∈ w.used) (hNot : ¬ w.Fits (.del e))
    (hStep : w.step (.del e) = some w') : ¬ w'.Lists := by
  obtain ⟨ev, hHead, hList⟩ := h.list
  obtain ⟨c, hCell⟩ := h.cell hUsed
  have hOff := (h.known e hUsed).2
  rintro ⟨ev', cells, hHead', hPath, hNodup, hFree', -⟩
  rcases hList with ⟨hNext, hFree⟩ | ⟨f, hNext, hCellF, hFree, hNe⟩
  · -- the list was empty, and the event leads on to another one
    obtain ⟨l, hDel, hSame, -, hHeadL, hCellL⟩ := ltDelEvent_empty hHead hNext hCell hOff
    rw [EventRun.step, hDel, Option.map_some, Option.some.injEq] at hStep
    subst hStep
    simp only [hSame, hHeadL, Option.some.injEq] at hHead'
    subst hHead'
    cases hPath with
    | @cons _ d cells _ hCellE hRest =>
        rw [hCellL, Option.some.injEq] at hCellE
        subst hCellE
        cases hSucc : c.next with
        | none =>
            refine hNot ⟨?_, ?_⟩
            · rw [link_of_get? hHead, hNext]
            · rw [link_of_get? hCell, hSucc]
        | some x =>
            simp only [hSucc] at hRest
            cases hRest with
            | cons _ _ =>
                have hx := (hFree' x).mp (by simp)
                simp only [hFree, insert_empty_eq, Set.mem_singleton_iff] at hx
                subst hx
                simp at hNodup
  · -- the list held another event, behind which nothing was linked
    have hDistinct : e ≠ f := fun hEq => h.apart e hUsed (by rw [hFree, hEq]; rfl)
    obtain ⟨l, hDel, hSame, hHeadL, hCellL⟩ := ltDelEvent_one hHead hNext hCellF hCell hDistinct hNe hOff
    rw [EventRun.step, hDel, Option.map_some, Option.some.injEq] at hStep
    subst hStep
    simp only [hSame, hHeadL, Option.some.injEq] at hHead'
    subst hHead'
    rw [hNext] at hPath
    cases hPath with
    | @cons _ d cells _ hCellE hRest =>
        rw [hCellL, Option.some.injEq] at hCellE
        subst hCellE
        rw [List.map_cons] at hFree'
        obtain rfl := hRest.eq_nil
        have hMem := (hFree' e).mpr (Set.mem_insert e _)
        exact hDistinct (by simpa using hMem)

/-- A call that fits comes to its end and keeps the list. -/
theorem Kept.call (h : w.Kept) (c : EventCall) (hLegal : w.Legal c) (hFits : w.Fits c) :
    w.Spares c ∧ ∃ w', w.step c = some w' ∧ w'.Kept := by
  cases c with
  | new => exact h.new hFits
  | del e => exact ⟨trivial, h.del hLegal hFits⟩

theorem Kept.serves_iff (h : w.Kept) (c : EventCall) (hLegal : w.Legal c) : w.Serves c ↔ w.Fits c := by
  constructor
  · rintro ⟨-, w', hStep, hLists⟩
    by_contra hNot
    cases c with
    | new =>
        rw [h.not_new hNot] at hStep
        cases hStep
    | del e => exact h.not_del hLegal hNot hStep hLists
  · intro hFits
    obtain ⟨hSpares, w', hStep, hKept⟩ := h.call c hLegal hFits
    exact ⟨hSpares, w', hStep, hKept.lists⟩

theorem kept_of_run {junk : Nat → EventLinks}
    (hRun : Run.Leads step (fun w c => w.Legal c ∧ w.Fits c) (start junk) w) : w.Kept := by
  refine hRun.all (kept_start junk) fun w c w' h hGuard hStep => ?_
  obtain ⟨-, w'', hStep', hKept⟩ := h.call c hGuard.1 hGuard.2
  rw [hStep] at hStep'
  cases hStep'
  exact hKept

/-- In every run whose calls find an empty list the list is sound, and the next call
comes to its end and keeps it so exactly if it finds an empty list too. What the fresh
blocks held before is left open. -/
theorem freeList_of_run {junk : Nat → EventLinks}
    (hRun : Run.Leads step (fun w c => w.Legal c ∧ w.Fits c) (start junk) w) :
    w.Lists ∧ ∀ c, w.Legal c → (w.Serves c ↔ w.Fits c) :=
  ⟨(kept_of_run hRun).lists, fun c hLegal => (kept_of_run hRun).serves_iff c hLegal⟩

def oneDeleted : EventRun :=
  ⟨⟨0, ⟨[⟨some 1, none⟩, ⟨none, some 0⟩, ⟨none, none⟩], fun _ => ⟨none, none⟩⟩⟩, insert 2 (insert 1 ∅) \ {1},
    insert 1 ((∅ \ {1}) \ {2})⟩

theorem oneDeleted_run : Run.Leads step (fun w c => w.Legal c ∧ w.Fits c) (start fun _ => ⟨none, none⟩) oneDeleted :=
  .next (.del 1) (.next .new (.next .new .start ⟨trivial, rfl⟩ rfl) ⟨trivial, rfl⟩ rfl)
    ⟨Set.mem_insert_of_mem _ (Set.mem_insert 1 _), rfl, rfl⟩ rfl

/-- The second deleted event is linked to itself, and the list does not reach it. -/
theorem not_freeList_of_run :
    ¬ ∀ (junk : Nat → EventLinks) (w : EventRun), Run.Leads step Legal (start junk) w → w.Lists := by
  intro hClaim
  have hUsed : 2 ∈ oneDeleted.used := ⟨Set.mem_insert 2 _, by decide⟩
  have hRun : Run.Leads step Legal _ oneDeleted := oneDeleted_run.mono fun _ _ hGuard => hGuard.1
  exact (kept_of_run oneDeleted_run).not_del hUsed (fun hFits => absurd hFits.1 (by decide)) rfl
    (hClaim _ _ (.next (.del 2) hRun hUsed rfl))

theorem freeList_of_run_oneDeleted : oneDeleted.Lists := (freeList_of_run oneDeleted_run).1

end EventRun
end Leactor
