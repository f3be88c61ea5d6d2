import Mathlib.Tactic

/-! Binary heaps laid out in an array: position `i` has the parent `(i - 1) / 2`.
Keys are looked at by position; a sift moves a hole through the array. -/
namespace BinHeap

variable {κ : Type*}

def parent (i : Nat) : Nat := (i - 1) / 2

theorem parent_lt {i : Nat} (h : 0 < i) : parent i < i := by
  unfold parent
  omega

/-- The two children of a position. -/
theorem parent_eq_iff {c i : Nat} : 0 < c ∧ parent c = i ↔ c = 2 * i + 1 ∨ c = 2 * (i + 1) := by
  unfold parent
  omega

section Order

variable [Preorder κ]

/-- No key of the first `n` positions is smaller than its parent's. -/
def Ordered (k : Nat → κ) (n : Nat) : Prop := ∀ i, 0 < i → i < n → k (parent i) ≤ k i

/-- The first key is least. -/
theorem Ordered.root_le {k : Nat → κ} {n : Nat} (h : Ordered k n) (i : Nat) (hi : i < n) : k 0 ≤ k i := by
  induction i using Nat.strong_induction_on with
  | _ i ih =>
      rcases Nat.eq_zero_or_pos i with rfl | hPos
      · exact le_refl _
      · have hLt := parent_lt hPos
        exact (ih (parent i) hLt (hLt.trans hi)).trans (h i hPos hi)

/-- The pairs away from the hole are in order, and so are the hole's children
with its parent. -/
structure OrderedOff (k : Nat → κ) (n hole : Nat) : Prop where
  off : ∀ i, 0 < i → i < n → i ≠ hole → parent i ≠ hole → k (parent i) ≤ k i
  across : ∀ i, 0 < i → i < n → parent i = hole → 0 < hole → k (parent hole) ≤ k i

theorem Ordered.off {k : Nat → κ} {n : Nat} (h : Ordered k n) {hole : Nat} (hHole : hole < n) :
    OrderedOff k n hole where
  off i hPos hi _ _ := h i hPos hi
  across i hPos hi hParent hHolePos := by
    have hChild := h i hPos hi
    rw [hParent] at hChild
    exact (h hole hHolePos hHole).trans hChild

/-- A key fits the hole if it is not smaller than the parent's and not greater
than the children's. -/
theorem OrderedOff.fill {k : Nat → κ} {n hole : Nat} {x : κ} (h : OrderedOff k n hole)
    (hAbove : 0 < hole → k (parent hole) ≤ x) (hBelow : ∀ i, 0 < i → i < n → parent i = hole → x ≤ k i) :
    Ordered (Function.update k hole x) n := by
  intro i hPos hi
  have hParent := parent_lt hPos
  by_cases hHere : i = hole
  · subst hHere
    rw [Function.update_self, Function.update_of_ne (by omega)]
    exact hAbove hPos
  · rw [Function.update_of_ne hHere]
    by_cases hChild : parent i = hole
    · rw [hChild, Function.update_self]
      exact hBelow i hPos hi hChild
    · rw [Function.update_of_ne hChild]
      exact h.off i hPos hi hHere hChild

/-- The parent moves into the hole, and the hole to the parent. The order off the hole
stays, as the parent bounds both children of its new place. -/
theorem OrderedOff.up {k : Nat → κ} {n hole : Nat} (h : OrderedOff k n hole) (hPos : 0 < hole)
    (hHole : hole < n) : OrderedOff (Function.update k hole (k (parent hole))) n (parent hole) := by
  have hLt := parent_lt hPos
  have hUp : ∀ i, 0 < i → i < n → i ≠ hole → parent i = parent hole → k (parent hole) ≤ k i := by
    intro i hi hn hNe hSame
    have hOff := h.off i hi hn hNe (by omega)
    rwa [hSame] at hOff
  constructor
  · intro i hi hn hNe hParent
    by_cases hHere : i = hole
    · exact absurd (by rw [hHere]) hParent
    · rw [Function.update_of_ne hHere]
      by_cases hChild : parent i = hole
      · rw [hChild, Function.update_self]
        exact h.across i hi hn hChild hPos
      · rw [Function.update_of_ne hChild]
        exact h.off i hi hn hHere hChild
  · intro i hi hn hParent hParentPos
    have hGrand := parent_lt hParentPos
    have hOver := h.off (parent hole) hParentPos (by omega) (by omega) (by omega)
    rw [Function.update_of_ne (by omega)]
    by_cases hHere : i = hole
    · rwa [hHere, Function.update_self]
    · rw [Function.update_of_ne hHere]
      exact hOver.trans (hUp i hi hn hHere hParent)

/-- A child that is least moves into the hole, and the hole to the child. -/
theorem OrderedOff.down {k : Nat → κ} {n hole c : Nat} (h : OrderedOff k n hole) (hChild : 0 < c ∧ parent c = hole)
    (hc : c < n) (hLeast : ∀ i, 0 < i → i < n → parent i = hole → k c ≤ k i) :
    OrderedOff (Function.update k hole (k c)) n c := by
  obtain ⟨hPos, rfl⟩ := hChild
  have hLt := parent_lt hPos
  constructor
  · intro i hi hn hNe hParent
    by_cases hHere : i = parent c
    · rw [hHere, Function.update_self, Function.update_of_ne (by have := parent_lt (hHere ▸ hi : 0 < parent c); omega)]
      exact h.across c hPos hc rfl (hHere ▸ hi)
    · rw [Function.update_of_ne hHere]
      by_cases hSame : parent i = parent c
      · rw [hSame, Function.update_self]
        exact hLeast i hi hn hSame
      · rw [Function.update_of_ne hSame]
        exact h.off i hi hn hHere hSame
  · intro i hi hn hParent _
    have hBelow := parent_lt hi
    rw [Function.update_self, Function.update_of_ne (by omega)]
    have hOff := h.off i hi hn (by omega) (by omega)
    rwa [hParent] at hOff

end Order

end BinHeap
