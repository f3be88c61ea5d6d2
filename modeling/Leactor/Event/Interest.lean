import Leactor.Library.Run
import Leactor.Event.DispatchSpec

/-! The registrations with epoll that `lt_io_add`, `lt_io_mod` and `lt_io_remove` make,
beside the events that the loop knows. -/
namespace Leactor

def lvFdrd : Nat := 1

def lvFdwr : Nat := 2

def lvConn : Nat := 4

def epolloneshot : Nat := 0x40000000

def epollet : Nat := 0x80000000

/-- The mask that `lt_add_to_epfd` and `lt_mod_to_epfd` make of an event's flags. -/
def epollMask (flag : Nat) : Nat :=
  let events := epollrdhup
  let events := if flag &&& lvFdrd ≠ 0 then events ||| epollin else events
  let events := if flag &&& lvFdwr ≠ 0 then events ||| epollout else events
  if flag &&& lvConn ≠ 0 then events ||| epollet else events

/-- What the mask says of the flags. `LV_ONESHOT` never gets to the kernel. -/
theorem epollMask_bits (flag : Nat) :
    (epollMask flag &&& epollin ≠ 0 ↔ flag &&& lvFdrd ≠ 0) ∧
      (epollMask flag &&& epollout ≠ 0 ↔ flag &&& lvFdwr ≠ 0) ∧
      (epollMask flag &&& epollet ≠ 0 ↔ flag &&& lvConn ≠ 0) ∧
      epollMask flag &&& epollrdhup ≠ 0 ∧ epollMask flag &&& epolloneshot = 0 := by
  simp only [epollMask]
  split_ifs with hRead hWrite hConn <;> simp_all [epollrdhup, epollin, epollout, epollet, epolloneshot]

/-- What epoll keeps for a socket: the mask, and the event that it reports. -/
structure Interest where
  events : Nat
  data : Nat
  deriving DecidableEq, Repr

abbrev EpollTable := Int → Option Interest

inductive EpollOp where
  | add
  | mod
  | del

/-- `epoll_ctl`. The kernel may also refuse a request that is in order. -/
def epollCtl (refused : Bool) (table : EpollTable) (op : EpollOp) (fd : Int) (x : Interest) : Int × EpollTable :=
  match op, table fd with
  | .add, none => if refused then (-1, table) else (0, Function.update table fd (some x))
  | .mod, some _ => if refused then (-1, table) else (0, Function.update table fd (some x))
  | .del, some _ => (0, Function.update table fd none)
  | _, _ => (-1, table)

def ltAddToEpfd (refused : Bool) (table : EpollTable) (event : Nat) (monFd : Int) (flag : Nat) : Int × EpollTable :=
  epollCtl refused table .add monFd ⟨epollMask flag, event⟩

def ltModToEpfd (refused : Bool) (table : EpollTable) (event : Nat) (monFd : Int) (flag : Nat) : Int × EpollTable :=
  epollCtl refused table .mod monFd ⟨epollMask flag, event⟩

def ltRemoveFromEpfd (table : EpollTable) (event : Nat) (monFd : Int) : Int × EpollTable :=
  epollCtl false table .del monFd ⟨0, event⟩

/-- A base with the sockets of its events and the interest list of its `epfd`. -/
structure Poller extends Base where
  fds : Nat → Int
  table : EpollTable

/-- A call with the socket that it is about, and whether `epoll_ctl` refuses it. -/
inductive PollCall where
  | add (fd : Int) (flag : Nat) (timeout : Int) (now : LtTime) (realloc refused : Bool)
  | mod (e flag : Nat) (timeout : Int) (now : LtTime) (realloc refused : Bool)
  | remove (e : Nat)
  | post (fd : Int)

namespace Poller

/-- `lt_io_add`, which does not look at the result of `lt_add_to_epfd`. -/
def ltIoAdd (w : Poller) (fd : Int) (flag : Nat) (timeout : Int) (now : LtTime) (realloc refused : Bool) :
    Nat × Poller :=
  let (e, b) := w.toBase.ltIoAdd flag timeout now realloc
  (e, { toBase := b, fds := Function.update w.fds e fd, table := (ltAddToEpfd refused w.table e fd flag).2 })

/-- `lt_io_mod` on an event, which keeps its socket. -/
def ltIoMod (w : Poller) (e flag : Nat) (timeout : Int) (now : LtTime) (realloc refused : Bool) : Poller :=
  { w with
    toBase := w.toBase.ltIoMod e flag timeout now realloc
    table := (ltModToEpfd refused w.table e (w.fds e) flag).2 }

def ltIoRemove (w : Poller) (e : Nat) : Poller :=
  { w with toBase := w.toBase.ltIoRemove e, table := (ltRemoveFromEpfd w.table e (w.fds e)).2 }

/-- `lt_new_post_callback`: an event of its own, which epoll hears nothing of. -/
def ltNewPostCallback (w : Poller) (fd : Int) : Nat × Poller :=
  let (e, b) := w.toBase.ltNewEvent
  (e, { w with toBase := b.ltEvInit e lvOneshot 0, fds := Function.update w.fds e fd })

def call (w : Poller) : PollCall → Poller
  | .add fd flag timeout now realloc refused => (w.ltIoAdd fd flag timeout now realloc refused).2
  | .mod e flag timeout now realloc refused => w.ltIoMod e flag timeout now realloc refused
  | .remove e => w.ltIoRemove e
  | .post fd => (w.ltNewPostCallback fd).2

/-- The flags of an event behind a call: the base is changed as by the calls of event_lea.c. -/
theorem flag_call (w : Poller) (c : PollCall) (x : Nat) :
    ((w.call c).ev x).flag = match c with
      | .add _ flag _ _ _ _ => if x = w.fresh then flag else (w.ev x).flag
      | .mod e flag _ _ _ _ => if x = e then flag else (w.ev x).flag
      | .remove _ => (w.ev x).flag
      | .post _ => if x = w.fresh then lvOneshot else (w.ev x).flag := by
  cases c with
  | add fd flag timeout now realloc refused =>
      refine (congrArg Prod.fst (w.toBase.active_io (.add flag timeout now realloc) x)).trans ?_
      exact apply_ite Prod.fst _ _ _
  | mod e flag timeout now realloc refused =>
      refine (congrArg Prod.fst (w.toBase.active_io (.mod e flag timeout now realloc) x)).trans ?_
      exact apply_ite Prod.fst _ _ _
  | remove e =>
      refine (congrArg Prod.fst (w.toBase.active_io (.remove e) x)).trans ?_
      exact (apply_ite Prod.fst _ _ _).trans (ite_self _)
  | post fd =>
      have hNew := Base.ev_modify w.toBase.ltNewEvent.2 w.fresh x
        fun ev => { ev with flag := lvOneshot, deleted := 0, nextActiveEv := none }
      exact (congrArg EventT.flag hNew).trans (apply_ite EventT.flag _ _ _)

theorem fresh_call (w : Poller) (c : PollCall) :
    (w.call c).fresh = w.fresh + match c with
      | .add _ _ _ _ _ _ => 1
      | .post _ => 1
      | _ => 0 := by
  cases c with
  | add fd flag timeout now realloc refused => exact w.toBase.fresh_io (.add flag timeout now realloc)
  | mod e flag timeout now realloc refused => exact w.toBase.fresh_io (.mod e flag timeout now realloc)
  | remove e => exact w.toBase.fresh_io (.remove e)
  | post fd => rfl

theorem fds_call (w : Poller) (c : PollCall) (x : Nat) :
    (w.call c).fds x = match c with
      | .add fd _ _ _ _ _ => if x = w.fresh then fd else w.fds x
      | .post fd => if x = w.fresh then fd else w.fds x
      | _ => w.fds x := by
  cases c with
  | add fd flag timeout now realloc refused => exact Function.update_apply _ _ _ _
  | mod e flag timeout now realloc refused => rfl
  | remove e => rfl
  | post fd => exact Function.update_apply _ _ _ _

/-- The interest list behind a call: a socket is not added twice, only one that is
watched is changed, and what the kernel refuses is left out. -/
theorem table_call (w : Poller) (c : PollCall) (fd : Int) :
    (w.call c).table fd = match c with
      | .add fd' flag _ _ _ refused =>
          if fd = fd' ∧ w.table fd = none ∧ refused = false then some ⟨epollMask flag, w.fresh⟩
          else w.table fd
      | .mod e flag _ _ _ refused =>
          if fd = w.fds e ∧ w.table fd ≠ none ∧ refused = false then some ⟨epollMask flag, e⟩
          else w.table fd
      | .remove e => if fd = w.fds e then none else w.table fd
      | .post _ => w.table fd := by
  cases c with
  | add fd' flag timeout now realloc refused =>
      simp only [call, ltIoAdd, ltAddToEpfd, epollCtl, Base.ltIoAdd, Base.ltNewEvent]
      cases hTable : w.table fd' <;> cases refused <;> by_cases hFd : fd = fd' <;> simp [hFd, hTable]
  | mod e flag timeout now realloc refused =>
      simp only [call, ltIoMod, ltModToEpfd, epollCtl]
      cases hTable : w.table (w.fds e) <;> cases refused <;> by_cases hFd : fd = w.fds e <;> simp [hFd, hTable]
  | remove e =>
      simp only [call, ltIoRemove, ltRemoveFromEpfd, epollCtl]
      cases hTable : w.table (w.fds e) <;> by_cases hFd : fd = w.fds e <;> simp [hFd, hTable]
  | post fd' => rfl

end Poller

/-- The base in a run, and the events added or changed and not removed since. -/
structure PollRun where
  poller : Poller
  armed : Set Nat

namespace PollRun

def step (w : PollRun) (c : PollCall) : PollRun where
  poller := w.poller.call c
  armed :=
    match c with
    | .add _ _ _ _ _ _ => insert w.poller.fresh w.armed
    | .mod e _ _ _ _ _ => insert e w.armed
    | .remove e => w.armed \ {e}
    | .post _ => w.armed

def Known (w : PollRun) : PollCall → Prop
  | .mod e _ _ _ _ _ => e < w.poller.fresh
  | _ => True

/-- A socket is added while no event is armed for it, only armed events are changed
or removed, and the kernel refuses nothing. -/
def Fits (w : PollRun) : PollCall → Prop
  | .add fd _ _ _ _ refused => (∀ e ∈ w.armed, w.poller.fds e ≠ fd) ∧ refused = false
  | .mod e _ _ _ _ refused => e ∈ w.armed ∧ refused = false
  | .remove e => e ∈ w.armed
  | .post _ => True

/-- What epoll reports is an armed event, on its own socket. -/
structure Reports (w : PollRun) : Prop where
  known : ∀ e ∈ w.armed, e < w.poller.fresh
  only : ∀ fd x, w.poller.table fd = some x → x.data ∈ w.armed ∧ w.poller.fds x.data = fd

/-- The interest list is the list of the armed events, with the masks of their flags. -/
structure Mirrors (w : PollRun) : Prop extends w.Reports where
  watched : ∀ e ∈ w.armed, w.poller.table (w.poller.fds e) = some ⟨epollMask (w.poller.ev e).flag, e⟩

/-- No call makes epoll report another event, or one on another's socket, whatever
the kernel refuses. -/
theorem Reports.step {w : PollRun} (h : w.Reports) (c : PollCall) (hKnown : w.Known c) : (w.step c).Reports := by
  have hFresh := w.poller.fresh_call c
  have hFds := w.poller.fds_call c
  have hTable : ∀ fd, (w.step c).poller.table fd = _ := w.poller.table_call c
  have hOld : ∀ e, e ∈ w.armed → e ≠ w.poller.fresh := fun e he => (h.known e he).ne
  cases c with
  | add fd flag timeout now realloc refused =>
      refine ⟨fun e he => ?_, fun g x hx => ?_⟩
      · rcases he with rfl | he
        · exact hFresh ▸ Nat.lt_succ_self _
        · exact hFresh ▸ Nat.lt_succ_of_lt (h.known e he)
      · rw [hTable] at hx
        dsimp only at hx
        split_ifs at hx with hHere
        · cases hx
          exact ⟨Set.mem_insert _ _, (hFds _).trans ((if_pos rfl).trans hHere.1.symm)⟩
        · obtain ⟨hArmed, hFd⟩ := h.only g x hx
          exact ⟨Set.mem_insert_of_mem _ hArmed, (hFds _).trans ((if_neg (hOld _ hArmed)).trans hFd)⟩
  | mod e flag timeout now realloc refused =>
      refine ⟨fun x hx => ?_, fun g x hx => ?_⟩
      · rcases hx with rfl | hx
        · exact hFresh ▸ hKnown
        · exact hFresh ▸ h.known x hx
      · rw [hTable] at hx
        dsimp only at hx
        split_ifs at hx with hHere
        · cases hx
          exact ⟨Set.mem_insert _ _, (hFds _).trans hHere.1.symm⟩
        · obtain ⟨hArmed, hFd⟩ := h.only g x hx
          exact ⟨Set.mem_insert_of_mem _ hArmed, (hFds _).trans hFd⟩
  | remove e =>
      refine ⟨fun x hx => hFresh ▸ h.known x hx.1, fun g x hx => ?_⟩
      rw [hTable] at hx
      dsimp only at hx
      split_ifs at hx with hHere
      obtain ⟨hArmed, hFd⟩ := h.only g x hx
      exact ⟨⟨hArmed, fun hEq => hHere (hFd.symm.trans (congrArg _ hEq))⟩, (hFds _).trans hFd⟩
  | post fd =>
      refine ⟨fun x hx => hFresh ▸ Nat.lt_succ_of_lt (h.known x hx), fun g x hx => ?_⟩
      obtain ⟨hArmed, hFd⟩ := h.only g x ((hTable g).symm.trans hx)
      exact ⟨hArmed, (hFds _).trans ((if_neg (hOld _ hArmed)).trans hFd)⟩

/-- No two armed events share a socket. -/
theorem Mirrors.inj {w : PollRun} (h : w.Mirrors) {e e' : Nat} (he : e ∈ w.armed) (he' : e' ∈ w.armed)
    (hSame : w.poller.fds e = w.poller.fds e') : e = e' := by
  have hHere := h.watched e he
  rw [hSame, h.watched e' he', Option.some.injEq, Interest.mk.injEq] at hHere
  exact hHere.2.symm

/-- The entry of an event with the flags `flag`. -/
theorem watched_of_flag {w : Poller} {e flag : Nat} (hFlag : (w.ev e).flag = flag) :
    some (Interest.mk (epollMask flag) e) = some ⟨epollMask (w.ev e).flag, e⟩ := by
  rw [hFlag]

/-- A call that fits keeps the interest list and the armed events together, one case for
each call. A refusal of the kernel is ruled out by the guard, not by the call. -/
theorem Mirrors.step {w : PollRun} (h : w.Mirrors) (c : PollCall) (hFits : w.Fits c) : (w.step c).Mirrors := by
  have hFlag := w.poller.flag_call c
  have hFds := w.poller.fds_call c
  have hTable := w.poller.table_call c
  have hOld : ∀ e, e ∈ w.armed → e ≠ w.poller.fresh := fun e he => (h.known e he).ne
  cases c with
  | add fd flag timeout now realloc refused =>
      obtain ⟨hFree, rfl⟩ := hFits
      refine ⟨h.toReports.step _ trivial, fun e he => (hTable _).trans ?_⟩
      have hNone : w.poller.table fd = none := by
        by_contra hSome
        obtain ⟨x, hx⟩ := Option.ne_none_iff_exists'.mp hSome
        exact hFree _ (h.only fd x hx).1 (h.only fd x hx).2
      rcases he with rfl | he
      · have hFd := (hFds w.poller.fresh).trans (if_pos rfl)
        refine (if_pos ⟨hFd, ?_, rfl⟩).trans (watched_of_flag ((hFlag _).trans (if_pos rfl)))
        exact (congrArg _ hFd).trans hNone
      · have hFd := (hFds e).trans (if_neg (hOld e he))
        refine (if_neg fun hHere => hFree e he (hFd.symm.trans hHere.1)).trans ?_
        refine (congrArg _ hFd).trans ((h.watched e he).trans ?_)
        exact watched_of_flag ((hFlag e).trans (if_neg (hOld e he)))
  | mod e flag timeout now realloc refused =>
      obtain ⟨hArmed, rfl⟩ := hFits
      refine ⟨h.toReports.step _ (h.known e hArmed), fun x hx => (hTable _).trans ?_⟩
      have hx : x ∈ w.armed := by rwa [PollRun.step, Set.insert_eq_of_mem hArmed] at hx
      have hWatched := (h.watched x hx).trans_ne (Option.some_ne_none _)
      refine (if_congr (and_iff_left ⟨hWatched, rfl⟩) rfl (h.watched x hx)).trans ?_
      by_cases hHere : w.poller.fds x = w.poller.fds e
      · refine (if_pos hHere).trans ?_
        obtain rfl := h.inj hx hArmed hHere
        exact watched_of_flag ((hFlag x).trans (if_pos rfl))
      · refine (if_neg hHere).trans ?_
        exact watched_of_flag ((hFlag x).trans (if_neg fun hEq => hHere (congrArg _ hEq)))
  | remove e =>
      refine ⟨h.toReports.step _ trivial, fun x hx => (hTable _).trans ?_⟩
      refine (if_neg fun hEq => hx.2 (h.inj hx.1 hFits hEq)).trans ((h.watched x hx.1).trans ?_)
      exact watched_of_flag (hFlag x)
  | post fd =>
      refine ⟨h.toReports.step _ trivial, fun x hx => (hTable _).trans ?_⟩
      refine (congrArg _ ((hFds x).trans (if_neg (hOld x hx)))).trans ((h.watched x hx).trans ?_)
      exact watched_of_flag ((hFlag x).trans (if_neg (hOld x hx)))

/-- In every run whose calls fit, epoll watches a socket exactly for the armed event on
it, and for what the flags of this event ask. Numbers of sockets may be used again once
their event was removed. -/
theorem watched_iff_of_run (b : Base) (fds : Nat → Int) {w : PollRun}
    (hRun : Run.Reach PollRun.step Fits ⟨⟨b, fds, fun _ => none⟩, ∅⟩ w) (fd : Int) (x : Interest) :
    w.poller.table fd = some x ↔
      x.data ∈ w.armed ∧ w.poller.fds x.data = fd ∧ x.events = epollMask (w.poller.ev x.data).flag := by
  have hMirrors : w.Mirrors := by
    refine hRun.all ⟨⟨?_, ?_⟩, ?_⟩ fun _ c h hFits => h.step c hFits
    · exact fun e he => absurd he (Set.notMem_empty e)
    · exact fun fd x hx => by cases hx
    · exact fun e he => absurd he (Set.notMem_empty e)
  constructor
  · intro hx
    obtain ⟨hArmed, rfl⟩ := hMirrors.only fd x hx
    have hHere := hMirrors.watched _ hArmed
    rw [hx, Option.some.injEq] at hHere
    exact ⟨hArmed, rfl, congrArg Interest.events hHere⟩
  · rintro ⟨hArmed, rfl, hMask⟩
    rw [hMirrors.watched _ hArmed, ← hMask]

def noSockets : PollRun := ⟨⟨Base.ltBaseInit (fun _ => 0) (fun _ => {}) none, fun _ => 0, fun _ => none⟩, ∅⟩

/-- Two sockets are added, the first one is changed to wait for a write, and the second one is removed. -/
def twoSockets : List PollCall :=
  [.add 3 lvFdrd noTimeout ⟨0, 0⟩ true false, .add 4 lvFdrd noTimeout ⟨0, 0⟩ true false,
    .mod 0 (lvFdwr ||| lvConn) noTimeout ⟨0, 0⟩ true false, .remove 1]

theorem reach_twoSockets : Run.Reach PollRun.step Fits noSockets (twoSockets.foldl step noSockets) := by
  have hFirst : noSockets.Fits (.add 3 lvFdrd noTimeout ⟨0, 0⟩ true false) :=
    ⟨fun e he => absurd he (Set.notMem_empty e), rfl⟩
  refine .next _ (.next _ (.next _ (.next _ .start hFirst) ⟨fun e he => ?_, rfl⟩) ⟨?_, rfl⟩) ?_
  · rcases he with rfl | he
    · decide
    · exact absurd he (Set.notMem_empty e)
  · exact Or.inr (Or.inl rfl)
  · exact Or.inr (Or.inl rfl)

theorem armed_twoSockets {e : Nat} : e ∈ (twoSockets.foldl step noSockets).armed ↔ e = 0 := by
  have hArmed : (twoSockets.foldl step noSockets).armed = insert 0 (insert 1 (insert 0 ∅)) \ {1} := rfl
  rw [hArmed]
  constructor
  · rintro ⟨rfl | rfl | rfl | he, hNot⟩
    · rfl
    · exact absurd rfl hNot
    · rfl
    · exact absurd he (Set.notMem_empty e)
  · rintro rfl
    exact ⟨Or.inl rfl, Nat.zero_ne_one⟩

theorem watched_iff_of_run_twoSockets :
    (twoSockets.foldl step noSockets).poller.table 3 = some ⟨epollMask (lvFdwr ||| lvConn), 0⟩ ∧
      ∀ x, (twoSockets.foldl step noSockets).poller.table 4 ≠ some x := by
  have hWatched := watched_iff_of_run (Base.ltBaseInit (fun _ => 0) (fun _ => {}) none) (fun _ => 0) reach_twoSockets
  refine ⟨(hWatched 3 _).mpr ⟨armed_twoSockets.mpr rfl, rfl, rfl⟩, fun x hx => ?_⟩
  obtain ⟨hArmed, hFd, -⟩ := (hWatched 4 x).mp hx
  rw [armed_twoSockets.mp hArmed] at hFd
  exact absurd hFd (by decide)

end PollRun

end Leactor
