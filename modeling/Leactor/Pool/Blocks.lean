import Leactor.Library.Layout
import Leactor.Library.Run
import Leactor.Pool.Soundness

/-! The blocks that `lt_alloc` hands out for the values of one type, and the arena that the
rest of the program takes them for. -/
namespace Leactor.Pool

open Extent Run

variable {α : Type*} {size count : Nat}

/-- A manager with the memory around it, and the addresses that it has handed out. -/
structure TypedPool where
  pools : PoolState
  mem : Nat → UInt8
  blocks : List Nat

/-- What is done with the blocks: one more is asked for, where `aligned_alloc` would
return `base`, or one is changed through its pointer. -/
inductive BlockCall (α : Type*) where
  | alloc (base : Nat)
  | modify (i : Nat) (g : α → α)

def BlockCall.onArena (a : Arena α) : BlockCall α → Arena α
  | .alloc _ => a.alloc.2
  | .modify i g => a.modify i g

namespace TypedPool

/-- A call. `lt_alloc` writes to the headers of the pools only. -/
inductive Step (lay : Layout UInt8 α size) : TypedPool → BlockCall α → TypedPool → Prop where
  | alloc {t : TypedPool} {base block : Nat} {pools' : PoolState} {mem' : Nat → UInt8}
      (hAlloc : ltAlloc (some base) t.pools = some (block, pools'))
      (hHeaders : ∀ x, (∀ q pool, pools'.heap q = some pool → x < q ∨ q + sizeofPool ≤ x) → mem' x = t.mem x) :
      Step lay t (.alloc base) ⟨pools', mem', t.blocks ++ [block]⟩
  | modify {t : TypedPool} {i b : Nat} {g : α → α} (hBlock : t.blocks[i]? = some b) :
      Step lay t (.modify i g) { t with mem := lay.write t.mem b (g (lay.read t.mem b)) }

def Fits (size count : Nat) (t : TypedPool) : BlockCall α → Prop
  | .alloc base => Crosses t.pools → FreshRange t.pools.heap (poolSize size count) base
  | .modify _ _ => True

variable {lay : Layout UInt8 α size} {t t' : TypedPool} {c : BlockCall α} {cs : List (BlockCall α)} {a : Arena α}

/-- The number of blocks for which the manager keeps its promise. -/
def Room (size count n : Nat) : Prop :=
  size ≤ capacity size count % stride size ∨ n ≤ capacity size count / stride size

/-- A call for which memory stays as it was. -/
theorem Step.within {pools' : PoolState} {base : Nat} (block : Nat)
    (hAlloc : ltAlloc (some base) t.pools = some (block, pools')) :
    Step lay t (.alloc base) ⟨pools', t.mem, t.blocks ++ [block]⟩ :=
  .alloc hAlloc fun _ _ => rfl

/-- Of elements of whole words a pool holds as many as its count says, and no more: the
header, counted too large, leaves eight bytes behind them. -/
theorem room_iff_le {n : Nat} (hWords : size % 8 = 0) (hLong : 8 < size)
    (hFits : sizeofManager + count * size < wordCount) : Room size count n ↔ n ≤ count := by
  have hStride : stride size = size := by
    unfold stride
    omega
  have hCapacity : capacity size count = 8 + count * size := by
    unfold capacity poolSize
    rw [Nat.mod_eq_of_lt (by unfold sizeofManager at hFits; omega : count * size < wordCount), Nat.mod_eq_of_lt hFits]
    unfold sizeofManager sizeofPool
    omega
  rw [Room, hStride, hCapacity, Nat.add_mul_mod_self_right, Nat.mod_eq_of_lt hLong,
    Nat.add_mul_div_right _ _ (by omega), Nat.div_eq_of_lt hLong, Nat.zero_add]
  exact or_iff_right (not_le.mpr hLong)

theorem Step.length_le (h : Step lay t c t') : t.blocks.length ≤ t'.blocks.length := by
  cases h with
  | alloc => simp
  | modify => exact le_refl _

theorem length_le_of_trail {t t' : TypedPool} (h : Trail (Step lay) (Fits size count) t cs t') :
    t.blocks.length ≤ t'.blocks.length := by
  induction h with
  | nil => exact le_refl _
  | cons _ hStep _ ih => exact hStep.length_le.trans ih

/-- A block lies behind the headers of all pools. -/
theorem behind_headers {s : PoolState} {b x : Nat} (hRanges : Ranges size count s) (hIn : InPool size s.heap b)
    (hLow : b ≤ x) (hHigh : x < b + size) : ∀ q pool, s.heap q = some pool → x < q ∨ q + sizeofPool ≤ x := by
  obtain ⟨r, own, hOwn, hHeader, hEnd⟩ := hIn
  rw [(hRanges.range r own hOwn).2.1] at hEnd
  intro q pool hPool
  by_cases hq : q = r
  · subst hq
    exact Or.inr (hHeader.trans hLow)
  · rcases hRanges.separate q r pool own hPool hOwn hq with hGap | hGap <;> omega

/-- A call keeps memory and arena together, if the arena hands out what was in memory. -/
theorem Step.represents (h : Step lay t c t') (hSize : 1 ≤ size) (run : AllocRun size count t.pools t.blocks)
    (hFits : t.Fits size count c) (hRoom : Room size count t'.blocks.length)
    (hRep : lay.Represents t.mem t.blocks a) :
    AllocRun size count t'.pools t'.blocks ∧
      ∃ x, lay.Represents t'.mem t'.blocks (c.onArena { a with junk := x }) := by
  cases h with
  | @alloc base block pools' mem' hAlloc hHeaders =>
      have run' := AllocRun.alloc base run hFits hAlloc
      have hSound := (ltAlloc_sound_iff hSize run').mpr hRoom
      have hSame : lay.Represents t.mem t.blocks { a with junk := fun _ => lay.read mem' block } := hRep.of_cells rfl
      refine ⟨run', fun _ => lay.read mem' block, hSame.alloc (fun b hb x hLow hHigh => hHeaders x ?_) rfl⟩
      exact behind_headers (ranges_of_run run') (hSound.inPool b (List.mem_append_left _ hb)) hLow hHigh
  | modify hBlock =>
      have hSound := (ltAlloc_sound_iff hSize run).mpr hRoom
      exact ⟨run, a.junk, hRep.modify hSound.apart hBlock _⟩

/-- What a row of calls leaves in an arena depends on the content of the blocks to come only. -/
theorem cells_foldl {cells : List α} {junk junk' : Nat → α} (h : ∀ n, cells.length ≤ n → junk n = junk' n) :
    (cs.foldl BlockCall.onArena ⟨cells, junk⟩).cells = (cs.foldl BlockCall.onArena ⟨cells, junk'⟩).cells := by
  induction cs generalizing cells with
  | nil => rfl
  | cons c cs ih =>
      cases c with
      | alloc base =>
          have hHere : junk cells.length = junk' cells.length := h _ (le_refl _)
          simp only [List.foldl_cons, BlockCall.onArena, Arena.alloc, Arena.fresh, hHere]
          exact ih fun n hn => h n (by rw [List.length_append] at hn; omega)
      | modify i g =>
          simp only [List.foldl_cons, BlockCall.onArena, Arena.modify]
          exact ih fun n hn => h n (by rwa [List.length_modify] at hn)

theorem represents_of_trail (hTrail : Trail (Step lay) (Fits size count) t cs t') (hSize : 1 ≤ size)
    (run : AllocRun size count t.pools t.blocks) (hRoom : Room size count t'.blocks.length)
    (hRep : lay.Represents t.mem t.blocks a) :
    AllocRun size count t'.pools t'.blocks ∧
      ∃ junk, lay.Represents t'.mem t'.blocks (cs.foldl BlockCall.onArena { a with junk := junk }) := by
  induction hTrail generalizing a with
  | nil => exact ⟨run, a.junk, hRep⟩
  | @cons t t₁ t' c cs hFits hStep hRest ih =>
      have hRoom₁ : Room size count t₁.blocks.length := hRoom.imp_right (length_le_of_trail hRest).trans
      obtain ⟨run₁, x, hRep₁⟩ := hStep.represents hSize run hFits hRoom₁ hRep
      obtain ⟨run', junk₁, hRep'⟩ := ih run₁ hRoom hRep₁
      refine ⟨run', ?_⟩
      -- the block that this call hands out holds `x`, and later ones what the rest of the run finds
      cases c with
      | alloc base =>
          refine ⟨fun n => if n ≤ a.fresh then x n else junk₁ n, hRep'.of_cells ?_⟩
          simp only [List.foldl_cons, BlockCall.onArena, Arena.alloc, Arena.fresh, le_refl, if_true]
          refine cells_foldl fun n hn => if_neg ?_
          rw [List.length_append, List.length_singleton] at hn
          omega
      | modify i g => exact ⟨junk₁, hRep'⟩

end TypedPool

/-- While the manager keeps its promise, the blocks of one type are apart and behave as an
arena: whatever is asked for and changed in place, in whatever order, each block holds what
the cell of its number holds, where a fresh cell holds what was in memory. -/
theorem represents_of_run (lay : Layout UInt8 α size) {m : LtMemoryPoolManager} {base : Nat} {mem : Nat → UInt8}
    {cs : List (BlockCall α)} {t : TypedPool} (hSize : 1 ≤ size)
    (hFresh : FreshRange (fun _ => none) (poolSize size count) base)
    (hRun : Trail (TypedPool.Step lay) (TypedPool.Fits size count)
      ⟨ltNewMemoryPoolManager (some base) size count ⟨m, fun _ => none⟩, mem, []⟩ cs t)
    (hRoom : TypedPool.Room size count t.blocks.length) :
    (t.blocks.Pairwise fun b c => Apart b size c size) ∧
      ∃ junk, lay.Represents t.mem t.blocks (cs.foldl BlockCall.onArena ⟨[], junk⟩) := by
  obtain ⟨run, hRep⟩ := TypedPool.represents_of_trail (a := ⟨[], fun _ => lay.read mem 0⟩) hRun hSize (.setup hFresh)
    hRoom (.nil mem _)
  exact ⟨((ltAlloc_sound_iff hSize run).mpr hRoom).apart, hRep⟩

def byteLayout : Layout UInt8 UInt8 1 where
  encode x := [x]
  decode w := w.headD 0
  length_encode _ := rfl
  decode_encode _ := rfl

/-- Three bytes from pools of two: the second call rolls over to address 96, and a byte of
each pool is written. -/
theorem represents_of_run_byteLayout :
    ∃ (t : TypedPool) (junk : Nat → UInt8), t.blocks = [56, 64, 136] ∧
      (t.blocks.Pairwise fun b c => Apart b 1 c 1) ∧
      byteLayout.Represents t.mem t.blocks
        ([BlockCall.alloc 96, .alloc 96, .alloc 96, .modify 1 fun _ => 7, .modify 2 fun _ => 8].foldl
          BlockCall.onArena ⟨[], junk⟩) := by
  have hFresh : FreshRange (fun _ => none) (poolSize 1 1) 16 :=
    ⟨by decide, by decide, by decide, fun q pool hPool => by cases hPool⟩
  have hStay (cur : LtMemoryPool) (t : TypedPool) (hTail : t.pools.heap t.pools.manager.tail = some cur)
      (hRoom : advance t.pools.manager cur ≤ cur.end_) : TypedPool.Fits 1 1 t (.alloc 96 : BlockCall UInt8) := by
    rintro ⟨cur', hCur, hOver⟩
    obtain rfl : cur = cur' := Option.some.inj (hTail.symm.trans hCur)
    exact absurd hOver (not_lt.mpr hRoom)
  have hRun : Trail (TypedPool.Step byteLayout) (TypedPool.Fits 1 1)
      ⟨ltNewMemoryPoolManager (some 16) 1 1 ⟨⟨0, 0, 0, 0, 0⟩, fun _ => none⟩, fun _ => 0, []⟩
      [.alloc 96, .alloc 96, .alloc 96, .modify 1 fun _ => 7, .modify 2 fun _ => 8] _ :=
    .cons (hStay _ _ rfl (by decide)) (.within 56 rfl) <|
    .cons (fun _ => freshRange_second (q := 16) rfl
        (fun q hq => by simp [bump, ltNewMemoryPoolManager, ltNewMemoryPool, PoolHeap.write, hq])
        (by decide) (by decide) (by decide) (by decide))
      (.within 64 rfl) <|
    .cons (hStay _ _ rfl (by decide)) (.within 136 rfl) <|
    .cons trivial (.modify rfl) (.cons trivial (.modify rfl) (.nil _))
  obtain ⟨hApart, junk, hRep⟩ := represents_of_run byteLayout (by decide) hFresh hRun (Or.inl (by decide))
  exact ⟨_, junk, rfl, hApart, hRep⟩

end Leactor.Pool
