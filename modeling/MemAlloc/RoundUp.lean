import Mathlib.Algebra.Order.Floor.Div

/-!
# Rounding up

`roundUp n a` is the least multiple of `a` that is at least `n`: a multiple
(`dvd_roundUp`), at least `n` (`le_roundUp`), and below every other
(`roundUp_le`). Padding a length by `a - n % a` reaches the next multiple
*above* `n`; it rounds up unless `n` is a multiple already, and then takes
`a` too much (`sub_mod_add`).
-/

namespace MemAlloc

/-- The least multiple of `a` that is at least `n`. -/
def roundUp (n a : Nat) : Nat := a * (n ⌈/⌉ a)

variable {n m a : Nat}

theorem dvd_roundUp (n a : Nat) : a ∣ roundUp n a := Nat.dvd_mul_right a _

theorem le_roundUp (ha : 0 < a) (n : Nat) : n ≤ roundUp n a := le_smul_ceilDiv ha

theorem roundUp_le (ha : 0 < a) (hd : a ∣ m) (hle : n ≤ m) : roundUp n a ≤ m := by
  obtain ⟨c, rfl⟩ := hd
  exact Nat.mul_le_mul_left a ((ceilDiv_le_iff_le_mul ha).mpr hle)

/-- The only multiple of `a` among the `a` numbers from `n` on. -/
theorem roundUp_eq (hd : a ∣ m) (hle : n ≤ m) (hlt : m < n + a) : roundUp n a = m := by
  have ha : 0 < a := by omega
  have hup := le_roundUp ha n
  refine Nat.le_antisymm (roundUp_le ha hd hle) ?_
  by_contra hne
  have hgap := Nat.le_of_dvd (by omega) (Nat.dvd_sub hd (dvd_roundUp n a))
  omega

theorem roundUp_of_dvd (ha : 0 < a) (hd : a ∣ n) : roundUp n a = n :=
  roundUp_eq hd (Nat.le_refl n) (by omega)

/-- Padding by `a - n % a`. -/
theorem sub_mod_add (ha : 0 < a) (n : Nat) :
    a - n % a + n = roundUp n a + if a ∣ n then a else 0 := by
  have hmod := Nat.mod_lt n ha
  split
  · rename_i hd
    rw [roundUp_of_dvd ha hd, Nat.mod_eq_zero_of_dvd hd]
    omega
  · rename_i hd
    have hpos : 0 < n % a := Nat.pos_of_ne_zero (mt Nat.dvd_of_mod_eq_zero hd)
    rw [Nat.add_zero]
    refine (roundUp_eq ?_ (by omega) (by omega)).symm
    have hle := Nat.mod_le n a
    rw [show a - n % a + n = a + (n - n % a) by omega]
    exact Nat.dvd_add (Nat.dvd_refl a) (Nat.dvd_sub_mod n)

theorem dvd_sub_mod_add (ha : 0 < a) (n : Nat) : a ∣ a - n % a + n := by
  rw [sub_mod_add ha]
  split
  · exact Nat.dvd_add (dvd_roundUp n a) (Nat.dvd_refl a)
  · exact dvd_roundUp n a

end MemAlloc
