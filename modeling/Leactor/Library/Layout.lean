import Leactor.Library.Arena
import Leactor.Library.Extent
import Leactor.Library.Memory

/-! Values of one type in blocks of a memory. While the blocks are apart, a memory and the
addresses of its blocks are as good as an arena. -/
open Extent Memory

/-- How the values of a type lie in memory. -/
structure Layout (β α : Type*) (size : Nat) where
  encode : α → List β
  decode : List β → α
  length_encode : ∀ x, (encode x).length = size
  decode_encode : ∀ x, decode (encode x) = x

namespace Layout

variable {β α : Type*} {size : Nat}

def read (lay : Layout β α size) (m : Nat → β) (b : Nat) : α := lay.decode (slice m b (b + size))

def write (lay : Layout β α size) (m : Nat → β) (b : Nat) (x : α) : Nat → β := place m b (lay.encode x)

theorem read_write_same (lay : Layout β α size) (m : Nat → β) (b : Nat) (x : α) :
    lay.read (lay.write m b x) b = x := by
  have hSlice := slice_place m b (lay.encode x)
  rw [lay.length_encode] at hSlice
  rw [read, write, hSlice, lay.decode_encode]

theorem read_write_apart (lay : Layout β α size) (m : Nat → β) {b c : Nat} (h : Apart b size c size) (x : α) :
    lay.read (lay.write m b x) c = lay.read m c := by
  rw [read, write, slice_place_of_disjoint, read]
  rw [lay.length_encode]
  exact h.symm

theorem read_congr (lay : Layout β α size) {m m' : Nat → β} {b : Nat} (h : ∀ x, b ≤ x → x < b + size → m' x = m x) :
    lay.read m' b = lay.read m b :=
  congrArg lay.decode (slice_congr h)

/-- The cells of the arena are in the blocks. -/
structure Represents (lay : Layout β α size) (m : Nat → β) (blocks : List Nat) (a : Arena α) : Prop where
  length : a.fresh = blocks.length
  cell : ∀ i b, blocks[i]? = some b → a.get? i = some (lay.read m b)

variable {lay : Layout β α size} {m m' : Nat → β} {blocks : List Nat} {a : Arena α}

theorem Represents.nil (m : Nat → β) (junk : Nat → α) : lay.Represents m [] ⟨[], junk⟩ :=
  ⟨rfl, fun _ _ hb => by cases hb⟩

theorem Represents.of_cells {a' : Arena α} (h : lay.Represents m blocks a) (hCells : a'.cells = a.cells) :
    lay.Represents m blocks a' where
  length := (congrArg List.length hCells).trans h.length
  cell i b hb := (congrArg (·[i]?) hCells).trans (h.cell i b hb)

/-- One more block, which holds what it held before. -/
theorem Represents.alloc (h : lay.Represents m blocks a)
    (hSame : ∀ c ∈ blocks, ∀ x, c ≤ x → x < c + size → m' x = m x) {b : Nat}
    (hJunk : a.junk a.fresh = lay.read m' b) : lay.Represents m' (blocks ++ [b]) a.alloc.2 where
  length := by rw [Arena.fresh_alloc, h.length, List.length_append, List.length_singleton]
  cell i c hc := by
    by_cases hi : i < blocks.length
    · rw [List.getElem?_append_left hi] at hc
      rw [Arena.get?_alloc (h.length ▸ hi), h.cell i c hc,
        lay.read_congr (hSame c (List.mem_of_getElem? hc))]
    · obtain rfl : i = blocks.length := by
        have hBound := (List.getElem?_eq_some_iff.mp hc).1
        rw [List.length_append, List.length_singleton] at hBound
        omega
      rw [List.getElem?_concat_length, Option.some.injEq] at hc
      rw [← h.length, Arena.get?_alloc_fresh, hJunk, hc]

/-- A block is changed in place. -/
theorem Represents.modify (h : lay.Represents m blocks a) (hApart : blocks.Pairwise fun b c => Apart b size c size)
    {i b : Nat} (hb : blocks[i]? = some b) (g : α → α) :
    lay.Represents (lay.write m b (g (lay.read m b))) blocks (a.modify i g) where
  length := (Arena.fresh_modify a i g).trans h.length
  cell j c hc := by
    by_cases hHere : i = j
    · subst hHere
      obtain rfl : b = c := Option.some.inj (hb.symm.trans hc)
      rw [lay.read_write_same, Arena.get?_modify_same, h.cell i b hb, Option.map_some]
    · have hNe : Apart b size c size := by
        obtain ⟨hi, rfl⟩ := List.getElem?_eq_some_iff.mp hb
        obtain ⟨hj, rfl⟩ := List.getElem?_eq_some_iff.mp hc
        rcases lt_or_gt_of_ne hHere with hLt | hLt
        · exact List.pairwise_iff_getElem.mp hApart i j hi hj hLt
        · exact (List.pairwise_iff_getElem.mp hApart j i hj hi hLt).symm
      rw [lay.read_write_apart m hNe, Arena.get?_modify_other g hHere]
      exact h.cell j c hc

end Layout
