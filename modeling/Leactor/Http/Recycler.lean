import Leactor.Library.Arena
import Leactor.Library.Run

/-! The free list of a connection's requests: `http_create_request` takes from
its head, and `http_finish_request` puts behind its tail. The blocks that
`lt_alloc` hands out are named by numbers and taken to be fresh, which the request
pool promises for four of them (`Pool.TypedPool.room_iff_le`). -/
namespace Leactor

open Arena

/-- The fields of `request_t` that the two functions write. -/
structure RequestBlock where
  conn : Nat
  headerIn : Nat
  state : Nat
  headerPool : Nat
  next : Option Nat

/-- `request_free_head` and `request_free_tail` of the connection `self`, and
the blocks of its request pool. -/
structure RequestList where
  self : Nat
  requests : Arena RequestBlock
  freeHead : Option Nat
  freeTail : Option Nat

namespace RequestList

/-- What `http_create_request` writes into its block: `buf` is `conn->buf`, and
`pool` is the pool of the headers. -/
def initRequest (l : RequestList) (buf pool : Nat) (q : RequestBlock) : RequestBlock :=
  { q with conn := l.self, headerIn := buf, state := 0, headerPool := pool }

def httpCreateRequest (l : RequestList) (buf pool : Nat) : Option (Nat × RequestList) :=
  match l.freeHead with
  | some r =>
      (l.requests.get? r).map fun q =>
        (r, { l with freeHead := q.next, requests := l.requests.modify r (l.initRequest buf pool) })
  | none =>
      let (r, requests) := l.requests.alloc
      some (r, { l with requests := requests.modify r (l.initRequest buf pool) })

/-- `http_finish_request`, less the pool of the headers, which it frees. -/
def httpFinishRequest (l : RequestList) (r : Nat) : RequestList :=
  let requests := l.requests.modify r fun q => { q with next := none }
  match l.freeTail with
  | some t => { l with requests := requests.modify t fun q => { q with next := some r }, freeTail := some r }
  | none => { l with requests := requests, freeTail := some r, freeHead := some r }

end RequestList

/-- The list in a run, the requests in use and the ones finished and not reissued. -/
structure Recycler where
  list : RequestList
  used : Set Nat
  free : Set Nat

inductive RequestCall where
  | create (buf pool : Nat)
  | finish (r : Nat)

namespace Recycler

/-- A connection whose free list is empty; `junk` is what the pool's blocks hold. -/
def start (self : Nat) (junk : Nat → RequestBlock) : Recycler := ⟨⟨self, ⟨[], junk⟩, none, none⟩, ∅, ∅⟩

def step (w : Recycler) : RequestCall → Option Recycler
  | .create buf pool =>
      (w.list.httpCreateRequest buf pool).map fun r => ⟨r.2, insert r.1 w.used, w.free \ {r.1}⟩
  | .finish r => some ⟨w.list.httpFinishRequest r, w.used \ {r}, insert r w.free⟩

def Legal (w : Recycler) : RequestCall → Prop
  | .create _ _ => True
  | .finish r => r ∈ w.used

def Fits (w : Recycler) : RequestCall → Prop
  | .create _ _ => w.list.freeHead ≠ none → w.list.freeHead ≠ w.list.freeTail
  | .finish _ => True

/-- The links from the head lead over the free requests, each once, to the tail. -/
def Lists (w : Recycler) : Prop :=
  ∃ cells, Path RequestBlock.next w.list.requests w.list.freeHead cells none ∧ (cells.map Prod.fst).Nodup ∧
    (∀ x, x ∈ cells.map Prod.fst ↔ x ∈ w.free) ∧ w.list.freeTail = (cells.map Prod.fst).getLast?

/-- The call neither returns a request in use nor writes into another one. -/
def Spares (w : Recycler) : RequestCall → Prop
  | .create buf pool => ∃ r, w.list.httpCreateRequest buf pool = some r ∧ r.1 ∉ w.used
  | .finish r => ∀ x ∈ w.used, x ≠ r → (w.list.httpFinishRequest r).requests.get? x = w.list.requests.get? x

def Serves (w : Recycler) (c : RequestCall) : Prop := w.Spares c ∧ ∃ w', w.step c = some w' ∧ w'.Lists

/-- The list is sound, and no request in use is on it. -/
structure Kept (w : Recycler) : Prop where
  lists : w.Lists
  apart : ∀ x ∈ w.used, x ∉ w.free
  known : ∀ x ∈ w.used, x < w.list.requests.fresh

variable {w w' : Recycler}

theorem kept_start (self : Nat) (junk : Nat → RequestBlock) : (start self junk).Kept where
  lists := ⟨[], .nil _, List.nodup_nil, fun x => by simp [start], rfl⟩
  apart x hx := absurd hx (Set.notMem_empty x)
  known x hx := absurd hx (Set.notMem_empty x)

/-- A request is made from a new block. -/
theorem Kept.create_new (h : w.Kept) (hNone : w.list.freeHead = none) (buf pool : Nat) :
    ∃ l, w.list.httpCreateRequest buf pool = some (w.list.requests.fresh, l) ∧
      (⟨l, insert w.list.requests.fresh w.used, w.free \ {w.list.requests.fresh}⟩ : Recycler).Kept := by
  obtain ⟨cells, hPath, hNodup, hFree, hLast⟩ := h.lists
  rw [hNone] at hPath
  cases hPath
  refine ⟨_, by rw [RequestList.httpCreateRequest, hNone]; rfl, ?_, ?_, ?_⟩
  · refine ⟨[], ?_, List.nodup_nil, fun x => ?_, hLast⟩
    · simp only
      exact .nil _
    · exact ⟨fun hx => absurd hx List.not_mem_nil, fun hx => (hFree x).mpr hx.1⟩
  · rintro x (rfl | hx) hMem
    · exact hMem.2 rfl
    · exact h.apart x hx hMem.1
  · intro x hx
    simp only [fresh_modify]
    have hFresh : w.list.requests.alloc.2.fresh = w.list.requests.fresh + 1 := fresh_alloc _
    rcases hx with rfl | hx
    · exact hFresh ▸ Nat.lt_succ_self _
    · exact hFresh ▸ Nat.lt_succ_of_lt (h.known x hx)

/-- A request is made from the first one of a longer list. The head moves on, and the
tail stays where it is. -/
theorem Kept.create_old (h : w.Kept) {r : Nat} (hHead : w.list.freeHead = some r)
    (hMore : w.list.freeTail ≠ some r) (buf pool : Nat) :
    ∃ l, w.list.httpCreateRequest buf pool = some (r, l) ∧
      r ∉ w.used ∧ (⟨l, insert r w.used, w.free \ {r}⟩ : Recycler).Kept := by
  obtain ⟨cells, hPath, hNodup, hFree, hLast⟩ := h.lists
  rw [hHead] at hPath
  cases hPath with
  | @cons _ q cells _ hCell hRest =>
      rw [List.map_cons, List.nodup_cons] at hNodup
      have hSome : cells ≠ [] := by
        rintro rfl
        exact hMore hLast
      have hUnused : r ∉ w.used := fun hUsed => h.apart r hUsed ((hFree r).mp List.mem_cons_self)
      refine ⟨{ w.list with
          freeHead := q.next, requests := w.list.requests.modify r (w.list.initRequest buf pool) },
        ?_, hUnused, ⟨cells, hRest.modify _ hNodup.1, hNodup.2, fun x => ?_, ?_⟩, ?_, ?_⟩
      · rw [RequestList.httpCreateRequest, hHead]
        simp only [hCell, Option.map_some]
      · constructor
        · intro hx
          refine ⟨(hFree x).mp (List.mem_cons_of_mem _ hx), fun hSame => ?_⟩
          rw [Set.mem_singleton_iff.mp hSame] at hx
          exact hNodup.1 hx
        · rintro ⟨hx, hNe⟩
          exact (List.mem_cons.mp ((hFree x).mpr hx)).resolve_left hNe
      · rw [hLast, List.map_cons, List.getLast?_cons_of_ne_nil (by simpa using hSome)]
      · rintro x (rfl | hx) hMem
        · exact hMem.2 rfl
        · exact h.apart x hx hMem.1
      · intro x hx
        simp only [fresh_modify]
        rcases hx with rfl | hx
        · exact lt_fresh hCell
        · exact h.known x hx

/-- A request in use is put behind the last one. On an empty list it becomes both ends.
-/
theorem Kept.finish (h : w.Kept) {r : Nat} (hUsed : r ∈ w.used) :
    w.Spares (.finish r) ∧
      (⟨w.list.httpFinishRequest r, w.used \ {r}, insert r w.free⟩ : Recycler).Kept := by
  obtain ⟨cells, hPath, hNodup, hFree, hLast⟩ := h.lists
  have hOff : r ∉ cells.map Prod.fst := fun hMem => h.apart r hUsed ((hFree r).mp hMem)
  obtain ⟨q, hCell⟩ : ∃ q, w.list.requests.get? r = some q :=
    Option.ne_none_iff_exists'.mp (mt get?_eq_none_iff.mp (not_le.mpr (h.known r hUsed)))
  have hOff' := hPath.modify (fun q => { q with next := none }) hOff
  have hCell' : (w.list.requests.modify r fun q => { q with next := none }).get? r = some { q with next := none } := by
    rw [get?_modify_same, hCell]
    rfl
  have hApart : ∀ x ∈ w.used \ {r}, x ∉ insert r w.free := fun x hx hMem =>
    hMem.elim (fun hSame => hx.2 hSame) fun hIn => h.apart x hx.1 hIn
  have hFree' : ∀ x, x ∈ cells.map Prod.fst ++ [r] ↔ x ∈ insert r w.free := by
    intro x
    rw [List.mem_append, hFree, List.mem_singleton, Set.mem_insert_iff, or_comm]
  have hNodup' : (cells.map Prod.fst ++ [r]).Nodup := by
    refine List.nodup_append.mpr ⟨hNodup, List.nodup_singleton _, fun x hx y hy => ?_⟩
    rw [List.mem_singleton.mp hy]
    rintro rfl
    exact hOff hx
  rcases List.eq_nil_or_concat cells with rfl | ⟨front, ⟨t, c⟩, rfl⟩
  · have hTail : w.list.freeTail = none := hLast
    have hFinish : w.list.httpFinishRequest r = { w.list with
        requests := w.list.requests.modify r fun q => { q with next := none }
        freeTail := some r
        freeHead := some r } := by
      rw [RequestList.httpFinishRequest, hTail]
    refine ⟨fun x _ hNe => ?_, ⟨[(r, { q with next := none })], ?_, hNodup', hFree', ?_⟩, hApart, fun x hx => ?_⟩
    · rw [hFinish]
      exact get?_modify_other _ hNe.symm
    · rw [hFinish]
      exact .cons hCell' (.nil _)
    · rw [hFinish]
      rfl
    · rw [hFinish, fresh_modify]
      exact h.known x hx.1
  · rw [List.concat_eq_append] at hPath hOff hOff' hNodup' hFree hFree' hLast
    have hTail : w.list.freeTail = some t := by simp [hLast]
    have hFreeT : t ∈ w.free := (hFree t).mp (by simp)
    have hFinish : w.list.httpFinishRequest r = { w.list with
        requests := (w.list.requests.modify r fun q => { q with next := none }).modify t
          fun q => { q with next := some r }
        freeTail := some r } := by
      rw [RequestList.httpFinishRequest, hTail]
    refine ⟨fun x hx hNe => ?_, ⟨front ++ [(t, { c with next := some r })] ++ [(r, { q with next := none })],
      ?_, ?_, fun x => ?_, ?_⟩, hApart, fun x hx => ?_⟩
    · have hNot : t ≠ x := fun hSame => h.apart x hx (by rwa [← hSame])
      rw [hFinish]
      exact (get?_modify_other _ hNot).trans (get?_modify_other _ hNe.symm)
    · rw [hFinish]
      exact hOff'.link hOff hCell' rfl rfl
    · simpa only [List.map_append, List.map_cons, List.map_nil] using hNodup'
    · simpa only [List.map_append, List.map_cons, List.map_nil] using hFree' x
    · rw [hFinish]
      simp
    · rw [hFinish, fresh_modify, fresh_modify]
      exact h.known x hx.1

/-- A call that fits does no harm and keeps the list. -/
theorem Kept.call (h : w.Kept) (c : RequestCall) (hLegal : w.Legal c) (hFits : w.Fits c) :
    w.Spares c ∧ ∃ w', w.step c = some w' ∧ w'.Kept := by
  cases c with
  | create buf pool =>
      cases hHead : w.list.freeHead with
      | none =>
          obtain ⟨l, hCreate, hKept⟩ := h.create_new hHead buf pool
          refine ⟨⟨_, hCreate, fun hUsed => lt_irrefl _ (h.known _ hUsed)⟩, _, ?_, hKept⟩
          rw [Recycler.step, hCreate]
          rfl
      | some r =>
          have hMore : w.list.freeTail ≠ some r := by
            intro hTail
            exact hFits (by rw [hHead]; exact Option.some_ne_none r) (hHead.trans hTail.symm)
          obtain ⟨l, hCreate, hUnused, hKept⟩ := h.create_old hHead hMore buf pool
          refine ⟨⟨_, hCreate, hUnused⟩, _, ?_, hKept⟩
          rw [Recycler.step, hCreate]
          rfl
  | finish r =>
      obtain ⟨hSpares, hKept⟩ := h.finish hLegal
      exact ⟨hSpares, _, rfl, hKept⟩

/-- The last request of the list leaves its address in `request_free_tail`. -/
theorem Kept.not_lists (h : w.Kept) {buf pool : Nat} (hSome : w.list.freeHead ≠ none)
    (hOne : w.list.freeHead = w.list.freeTail) (hStep : w.step (.create buf pool) = some w') : ¬ w'.Lists := by
  obtain ⟨cells, hPath, hNodup, -, hLast⟩ := h.lists
  obtain ⟨r, hHead⟩ := Option.ne_none_iff_exists'.mp hSome
  rw [hHead] at hPath hOne
  cases hPath with
  | @cons _ q cells _ hCell hRest =>
      obtain rfl : cells = [] := by
        by_contra hMore
        rw [← hOne, List.map_cons, List.getLast?_cons_of_ne_nil (by simpa using hMore)] at hLast
        rw [List.map_cons, List.nodup_cons] at hNodup
        exact hNodup.1 (List.mem_of_getLast? hLast.symm)
      rintro ⟨cells', hPath', -, -, hLast'⟩
      simp only [Recycler.step, RequestList.httpCreateRequest, hHead, hCell, Option.map_some, Option.some.injEq] at hStep
      subst hStep
      simp only at hPath' hLast'
      rw [hRest.eq_of_nil] at hPath'
      cases hPath'
      rw [← hOne] at hLast'
      cases hLast'

theorem Kept.serves_iff (h : w.Kept) (c : RequestCall) (hLegal : w.Legal c) : w.Serves c ↔ w.Fits c := by
  constructor
  · rintro ⟨-, w', hStep, hLists⟩
    cases c with
    | create buf pool => exact fun hSome hOne => h.not_lists hSome hOne hStep hLists
    | finish r => trivial
  · intro hFits
    obtain ⟨hSpares, w', hStep, hKept⟩ := h.call c hLegal hFits
    exact ⟨hSpares, w', hStep, hKept.lists⟩

theorem kept_of_run {self : Nat} {junk : Nat → RequestBlock}
    (hRun : Run.Leads step (fun w c => w.Legal c ∧ w.Fits c) (start self junk) w) : w.Kept := by
  refine hRun.all (kept_start self junk) fun w c w' h hGuard hStep => ?_
  obtain ⟨-, w'', hStep', hKept⟩ := h.call c hGuard.1 hGuard.2
  rw [hStep] at hStep'
  cases hStep'
  exact hKept

/-- In every run that creates no request from a list of one, the list is sound, and the
next call keeps it so, and does no harm, exactly if it does not either. What the blocks
of the pool held before is left open. -/
theorem recycles_of_run {self : Nat} {junk : Nat → RequestBlock}
    (hRun : Run.Leads step (fun w c => w.Legal c ∧ w.Fits c) (start self junk) w) :
    w.Lists ∧ ∀ c, w.Legal c → (w.Serves c ↔ w.Fits c) :=
  ⟨(kept_of_run hRun).lists, fun c hLegal => (kept_of_run hRun).serves_iff c hLegal⟩

/-- One request created and finished, by a connection at address 1. -/
def recycledOnce : Recycler :=
  ⟨⟨1, ⟨[⟨1, 2, 0, 3, none⟩], fun _ => ⟨0, 0, 0, 0, none⟩⟩, some 0, some 0⟩, insert 0 ∅ \ {0}, insert 0 (∅ \ {0})⟩

theorem recycledOnce_run : Run.Leads step (fun w c => w.Legal c ∧ w.Fits c)
    (start 1 fun _ => ⟨0, 0, 0, 0, none⟩) recycledOnce :=
  .next (.finish 0) (.next (.create 2 3) .start ⟨trivial, fun hNot => absurd rfl hNot⟩ rfl)
    ⟨Set.mem_insert 0 _, trivial⟩ rfl

/-- The request is created again: the list is empty, and its tail is not. -/
theorem not_recycles_of_run :
    ¬ ∀ (self : Nat) (junk : Nat → RequestBlock) (w : Recycler), Run.Leads step Legal (start self junk) w → w.Lists := by
  intro hClaim
  have hRun : Run.Leads step Legal _ recycledOnce := recycledOnce_run.mono fun _ _ hGuard => hGuard.1
  exact (kept_of_run recycledOnce_run).not_lists (by decide) rfl rfl
    (hClaim _ _ _ (.next (.create 2 3) hRun trivial rfl))

theorem recycles_of_run_recycledOnce : recycledOnce.Lists := (recycles_of_run recycledOnce_run).1

end Recycler
end Leactor
