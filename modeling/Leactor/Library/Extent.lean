import Mathlib.Tactic
import Mathlib.Data.Nat.Bitwise

/-! Half-open address ranges `[a, a + n)`, rounding to a power of two, and
the equally spaced slots that a bump allocator cuts from one range. -/
namespace Extent

/-- The ranges `[a, a + n)` and `[b, b + m)` share no address. -/
def Apart (a n b m : Nat) : Prop := a + n ≤ b ∨ b + m ≤ a

/-- The range `[a, a + n)` lies inside the range `[b, b + m)`. -/
def Within (a n b m : Nat) : Prop := b ≤ a ∧ a + n ≤ b + m

instance (a n b m : Nat) : Decidable (Apart a n b m) :=
  inferInstanceAs (Decidable (_ ∨ _))

instance (a n b m : Nat) : Decidable (Within a n b m) :=
  inferInstanceAs (Decidable (_ ∧ _))

theorem Apart.symm {a n b m : Nat} (h : Apart a n b m) : Apart b m a n :=
  Or.symm h

/-- Parts of separate ranges are separate. -/
theorem Apart.mono {a n b m a' n' b' m' : Nat} (h : Apart a n b m)
    (hLeft : Within a' n' a n) (hRight : Within b' m' b m) : Apart a' n' b' m' := by
  obtain ⟨hLeftLow, hLeftHigh⟩ := hLeft
  obtain ⟨hRightLow, hRightHigh⟩ := hRight
  rcases h with h | h
  · exact Or.inl (by omega)
  · exact Or.inr (by omega)

/-- A nonempty range is not separate from itself. -/
theorem not_apart_self {a n : Nat} (h : 0 < n) : ¬ Apart a n a n := by
  unfold Apart
  omega

/-- Clearing the low `k` bits of a `w`-bit word rounds it down to a multiple of `2 ^ k`. -/
theorem land_high_bits {w k x : Nat} (hk : k ≤ w) (hx : x < 2 ^ w) :
    x &&& (2 ^ w - 2 ^ k) = x / 2 ^ k * 2 ^ k := by
  have hMask : 2 ^ w - 2 ^ k = (2 ^ (w - k) - 1) <<< k := by
    rw [Nat.shiftLeft_eq, Nat.sub_mul, ← pow_add, one_mul, Nat.sub_add_cancel hk]
  rw [hMask, ← Nat.shiftRight_eq_div_pow, ← Nat.shiftLeft_eq]
  apply Nat.eq_of_testBit_eq
  intro i
  simp only [Nat.testBit_land, Nat.testBit_shiftLeft, Nat.testBit_two_pow_sub_one,
    Nat.testBit_shiftRight]
  by_cases hi : k ≤ i
  · by_cases hw : i < w
    · have hLow : i - k < w - k := by omega
      simp [hi, hLow]
    · have hHigh : x.testBit i = false :=
        Nat.testBit_lt_two_pow (hx.trans_le (Nat.pow_le_pow_right (by omega) (by omega)))
      simp [hi, hHigh]
  · simp [hi]

/-- The `i`-th slot of width `w` above `base`. -/
def slot (base w i : Nat) : Nat := base + i * w

/-- Different slots hold separate blocks of any size up to the slot width. -/
theorem slot_apart {base w n i j : Nat} (hn : n ≤ w) (hij : i < j) :
    Apart (slot base w i) n (slot base w j) n := by
  have h : (i + 1) * w ≤ j * w := Nat.mul_le_mul_right w hij
  rw [Nat.add_mul, one_mul] at h
  exact Or.inl (by unfold slot; omega)

/-- Rounding the end of a block in slot `i` up to the slot grid gives slot `i + 1`. -/
theorem roundUp_slot {a n base i : Nat} (ha : 0 < a) (hBase : base % a = 0) :
    (slot base ((n + (a - 1)) / a * a) i + n + (a - 1)) / a * a =
      slot base ((n + (a - 1)) / a * a) (i + 1) := by
  obtain ⟨b, rfl⟩ := Nat.dvd_of_mod_eq_zero hBase
  unfold slot
  have hSum : a * b + i * ((n + (a - 1)) / a * a) + n + (a - 1) =
      (n + (a - 1)) + (b + i * ((n + (a - 1)) / a)) * a := by ring
  rw [hSum, Nat.add_mul_div_right _ _ ha]
  ring

end Extent
