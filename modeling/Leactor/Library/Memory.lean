import Mathlib.Tactic
import Mathlib.Data.List.Range

/-! A memory of symbols indexed by addresses, and the words it holds between
two addresses. -/
namespace Memory

variable {α : Type*}

/-- The word in `[a, b)`; empty when `b ≤ a`. -/
def slice (m : Nat → α) (a b : Nat) : List α :=
  (List.range' a (b - a)).map m

/-- The memory `m` with the word `w` written at `a`. -/
def place (m : Nat → α) (a : Nat) (w : List α) : Nat → α :=
  fun x => if h : a ≤ x ∧ x < a + w.length then w.get ⟨x - a, by omega⟩ else m x

@[simp] theorem length_slice (m : Nat → α) (a b : Nat) : (slice m a b).length = b - a := by
  simp [slice]

theorem slice_of_le {m : Nat → α} {a b : Nat} (h : b ≤ a) : slice m a b = [] := by
  simp [slice, Nat.sub_eq_zero_of_le h]

@[simp] theorem slice_self (m : Nat → α) (a : Nat) : slice m a a = [] :=
  slice_of_le (Nat.le_refl a)

theorem slice_cons {m : Nat → α} {a b : Nat} (h : a < b) :
    slice m a b = m a :: slice m (a + 1) b := by
  have hLength : b - a = (b - (a + 1)) + 1 := by omega
  simp only [slice, hLength, List.range'_succ, List.map_cons]

theorem slice_append {m : Nat → α} {a b c : Nat} (hab : a ≤ b) (hbc : b ≤ c) :
    slice m a b ++ slice m b c = slice m a c := by
  obtain ⟨k, rfl⟩ := Nat.exists_eq_add_of_le hab
  obtain ⟨l, rfl⟩ := Nat.exists_eq_add_of_le hbc
  simp only [slice, Nat.add_sub_cancel_left]
  rw [← List.map_append, List.range'_append_1, show a + k + l - a = k + l by omega]

/-- A word put together from two neighbouring ones. -/
theorem slice_eq_append_of {m : Nat → α} {a b : Nat} {xs ys : List α} (hLe : a + xs.length ≤ b)
    (hLeft : slice m a (a + xs.length) = xs) (hRight : slice m (a + xs.length) b = ys) :
    slice m a b = xs ++ ys := by
  rw [← slice_append (Nat.le_add_right a xs.length) hLe, hLeft, hRight]

theorem slice_succ {m : Nat → α} {a b : Nat} (h : a ≤ b) :
    slice m a (b + 1) = slice m a b ++ [m b] := by
  rw [← slice_append h (Nat.le_succ b), slice_cons (Nat.lt_succ_self b), slice_self]

@[simp] theorem slice_one (m : Nat → α) (a : Nat) : slice m a (a + 1) = [m a] := by
  rw [slice_cons (Nat.lt_succ_self a), slice_self]

/-- The beginning of a word held in memory. -/
theorem slice_take {m : Nat → α} {a n k : Nat} (h : k ≤ n) :
    slice m a (a + k) = (slice m a (a + n)).take k := by
  rw [← slice_append (Nat.le_add_right a k) (by omega : a + k ≤ a + n),
    List.take_append_of_le_length (by simp), List.take_of_length_le (by simp)]

/-- The end of a word held in memory. -/
theorem slice_drop (m : Nat → α) (a j n : Nat) : slice m (a + j) (a + n) = (slice m a (a + n)).drop j := by
  rcases Nat.le_total j n with h | h
  · rw [← slice_append (Nat.le_add_right a j) (by omega : a + j ≤ a + n),
      List.drop_append_of_le_length (by simp), List.drop_of_length_le (by simp), List.nil_append]
  · rw [slice_of_le (by omega), List.drop_of_length_le (by simp; omega)]

theorem slice_congr {m m' : Nat → α} {a b : Nat} (h : ∀ x, a ≤ x → x < b → m x = m' x) :
    slice m a b = slice m' a b := by
  apply List.map_congr_left
  intro x hx
  rw [List.mem_range'_1] at hx
  exact h x hx.1 (by omega)

theorem mem_slice {m : Nat → α} {a b : Nat} {c : α} :
    c ∈ slice m a b ↔ ∃ x, a ≤ x ∧ x < b ∧ m x = c := by
  simp only [slice, List.mem_map, List.mem_range'_1]
  constructor
  · rintro ⟨x, hx, rfl⟩
    exact ⟨x, hx.1, by omega, rfl⟩
  · rintro ⟨x, hLow, hHigh, rfl⟩
    exact ⟨x, ⟨hLow, by omega⟩, rfl⟩

/-- A word read from memory splits where the memory does. -/
theorem slice_eq_append {m : Nat → α} {a b : Nat} {xs ys : List α} (h : slice m a b = xs ++ ys) :
    slice m a (a + xs.length) = xs ∧ slice m (a + xs.length) b = ys := by
  have hLength := congrArg List.length h
  rw [length_slice, List.length_append] at hLength
  by_cases hab : a ≤ b
  · have hSplit := slice_append (m := m) (Nat.le_add_right a xs.length) (by omega : _ ≤ b)
    rw [h] at hSplit
    exact List.append_inj hSplit (by simp)
  · have hx : xs = [] := List.length_eq_zero_iff.mp (by omega)
    have hy : ys = [] := List.length_eq_zero_iff.mp (by omega)
    subst hx hy
    exact ⟨by simp, by simpa using h⟩

theorem slice_eq_cons {m : Nat → α} {a b : Nat} {x : α} {xs : List α} (h : slice m a b = x :: xs) :
    a < b ∧ m a = x ∧ slice m (a + 1) b = xs := by
  have hLength := congrArg List.length h
  rw [length_slice, List.length_cons] at hLength
  have hab : a < b := by omega
  rw [slice_cons hab, List.cons.injEq] at h
  exact ⟨hab, h⟩

/-- Two memories that hold the same word hold the same symbols. -/
theorem eq_of_slice_eq {m m' : Nat → α} {a b i n : Nat} (h : slice m a (a + n) = slice m' b (b + n))
    (hi : i < n) : m (a + i) = m' (b + i) := by
  have hDrop := congrArg (List.drop i) h
  rw [← slice_drop, ← slice_drop, slice_cons (by omega : a + i < a + n),
    slice_cons (by omega : b + i < b + n), List.cons.injEq] at hDrop
  exact hDrop.1

@[simp] theorem slice_place (m : Nat → α) (a : Nat) (w : List α) :
    slice (place m a w) a (a + w.length) = w := by
  apply List.ext_getElem (by simp)
  intro i hi hw
  have hBound : i < w.length := hw
  simp [slice, place, hBound]

/-- A word written elsewhere. -/
theorem slice_place_of_disjoint {m : Nat → α} {a b c : Nat} {w : List α} (h : c ≤ a ∨ a + w.length ≤ b) :
    slice (place m a w) b c = slice m b c := by
  apply slice_congr
  intro x hLow hHigh
  unfold place
  rw [dif_neg]
  omega

/-- The copies of a symbol at the end of a word, and what stands in front of them. -/
theorem exists_trailing (a : α) (w : List α) : ∃ v n, w = v ++ List.replicate n a ∧ v.getLast? ≠ some a := by
  induction w using List.reverseRecOn with
  | nil => exact ⟨[], 0, rfl, nofun⟩
  | append_singleton w c ih =>
      by_cases hc : c = a
      · obtain ⟨v, n, rfl, hv⟩ := ih
        exact ⟨v, n + 1, by rw [hc, List.append_assoc, List.replicate_succ'], hv⟩
      · exact ⟨w ++ [c], 0, by simp, by simpa using hc⟩

end Memory
